import Lthread.IoWaits
import Lthread.Placement

namespace Lthread

open Function (update update_apply)

variable {m : ℕ} {s s' : State m} {l : Label m} {w w' : Traffic} {pc pc' : ℕ → Pc} {t fd : ℕ}
  {e : Event} {clock : ℕ} {isOpen : ℕ → Bool}

/-- Every event comes from a registration, and the descriptors waited for fit `fd_wait`. -/
def Label.kqueue : Label m → Bool
  | .inject _ => false
  | .call _ (.waitFd fd _) => decide (fd < 32768)
  | _ => true

/-- An event finds no lthread that waits for its descriptor in the other direction. -/
def State.oneWay (s : State m) : Label m → Bool
  | .poller =>
    match s.pollerPc with
    | .desched ev dir _ _ =>
      decide (dir = ev.filter ∨ ∀ t ∈ s.waiting, s.waitKey t ≠ eventKey ev.fd dir)
    | _ => true
  | _ => true

structure Traffic.Served (w : Traffic) (pc : ℕ → Pc) : Prop extends w.Waits pc where
  once : ∀ fd e, w.outstanding fd e ≤ 1
  served : ∀ fd e, 0 < w.outstanding fd e → fd < 65536 ∧
    ∃ t ∈ w.waiting, w.waitKey t = eventKey fd e ∧ ∀ fd' e', pc t ≠ .register fd' e'
  registering : ∀ t fd e, pc t = .register fd e → fd < 65536 ∧ t ∈ w.waiting
  reader : ∀ ev rest, w.pollerPc = .desched ev .write none rest → ev.filter = .write

theorem Traffic.Served.frame (h : w.Served pc) (hW : w'.Waits pc) (hw : w'.waiting = w.waiting)
    (hk : w'.waitKey = w.waitKey) (ho : ∀ fd e, w'.outstanding fd e ≤ w.outstanding fd e)
    (hp : ∀ ev rest, w'.pollerPc = .desched ev .write none rest → ev.filter = .write) :
    w'.Served pc where
  toWaits := hW
  once fd e := (ho fd e).trans (h.once fd e)
  served fd e hpos := by
    rw [hw, hk]
    exact h.served fd e (hpos.trans_le (ho fd e))
  registering := by
    rw [hw]
    exact h.registering
  reader := hp

theorem nextEvent_ne (l : List KEvent) (ev : KEvent) (lt : Option ℕ) (rest : List KEvent) :
    nextEvent l ≠ .desched ev .write lt rest := by
  cases l <;> simp [nextEvent]

theorem Traffic.Served.outstanding_eq_zero (h : w.Served pc) (hp : pc t = .register fd e) :
    w.outstanding fd e = 0 := by
  by_contra hne
  obtain ⟨-, u, hu, hku, hpu⟩ := h.served fd e (Nat.pos_of_ne_zero hne)
  have ht := (h.registering t fd e hp).2
  have hut : u = t := h.sorted.eq_of_key hu ht (hku.trans (h.key t ht fd e (.inl hp)).symm)
  exact hpu fd e (hut ▸ hp)

theorem Traffic.Served.add {waiting : List ℕ} (h : w.Served pc) (hfd : fd < 32768)
    (hr : w.stWaitRead t = false) (hw : w.stWaitWrite t = false)
    (hi : OrderedTree.insert (w.withWait t fd e).waitKey t w.waiting = some waiting) :
    { w with
      waiting := waiting
      stWaitRead := (w.withWait t fd e).stWaitRead
      stWaitWrite := (w.withWait t fd e).stWaitWrite
      fdWait := (w.withWait t fd e).fdWait }.Served (update pc t (.register fd e)) := by
  have ht : t ∉ w.waiting := h.notMem hr hw
  have hmem : ∀ u, u ∈ waiting ↔ u = t ∨ u ∈ w.waiting :=
    fun u => (OrderedTree.insert_perm hi).mem_iff.trans List.mem_cons
  refine { toWaits := h.toWaits.add hr hw hi, once := h.once, served := ?_, registering := ?_
           reader := h.reader }
  · intro fd' e' hpos
    obtain ⟨hsmall, u, hu, hk, hp⟩ := h.served fd' e' hpos
    have hut : u ≠ t := ne_of_mem_of_not_mem hu ht
    obtain ⟨h₁, -, h₂⟩ := w.withWait_of_ne fd e hut
    refine ⟨hsmall, u, (hmem u).mpr (.inr hu), ?_, ?_⟩
    · rw [← hk]
      simp only [Traffic.waitKey, h₁, h₂]
    · rwa [Function.update_of_ne hut]
  · intro u fd' e' hp
    by_cases hut : u = t
    · subst hut
      simp only [Function.update_self, Pc.register.injEq] at hp
      exact ⟨by omega, (hmem u).mpr (.inl rfl)⟩
    · rw [Function.update_of_ne hut] at hp
      exact ⟨(h.registering u fd' e' hp).1, (hmem u).mpr (.inr (h.registering u fd' e' hp).2)⟩

theorem Traffic.Served.register (h : w.Served pc) (hp : pc t = .register fd e)
    (hW : { w with armed := update w.armed fd (update (w.armed fd) e true) }.Waits
      (update pc t (.waitFd fd e))) :
    { w with armed := update w.armed fd (update (w.armed fd) e true) }.Served
      (update pc t (.waitFd fd e)) := by
  obtain ⟨hsmall, ht⟩ := h.registering t fd e hp
  have hzero := h.outstanding_eq_zero hp
  refine { toWaits := hW, once := ?_, served := ?_, registering := ?_, reader := h.reader }
  · intro fd' e'
    rw [Traffic.outstanding_register]
    split
    · rename_i heq
      obtain ⟨rfl, rfl, -⟩ := heq
      omega
    · exact h.once fd' e'
  · intro fd' e' hpos
    rw [Traffic.outstanding_register] at hpos
    split at hpos
    · rename_i heq
      obtain ⟨rfl, rfl, -⟩ := heq
      exact ⟨hsmall, t, ht, h.key t ht fd' e' (.inl hp), by simp⟩
    · obtain ⟨hsmall', u, hu, hk, hpu⟩ := h.served fd' e' hpos
      have hut : u ≠ t := by
        rintro rfl
        exact hpu fd e hp
      refine ⟨hsmall', u, hu, hk, ?_⟩
      rwa [Function.update_of_ne hut]
  · intro u fd' e' hpu
    have hut : u ≠ t := by
      rintro rfl
      simp at hpu
    rw [Function.update_of_ne hut] at hpu
    exact h.registering u fd' e' hpu

section Desched

variable {ev : KEvent} {dir : Event} {lt : Option ℕ} {rest : List KEvent}

theorem Traffic.Served.outstanding_desched (h : w.Served pc)
    (hp : w.pollerPc = .desched ev ev.filter lt rest) : w.outstanding ev.fd ev.filter = 1 := by
  have hpos : 0 < w.outstanding ev.fd ev.filter := by
    refine Traffic.outstanding_pos.mpr (.inr ⟨ev, ?_, rfl, rfl⟩)
    simp [hp, PollerPc.unhandled]
  have := h.once ev.fd ev.filter
  omega

theorem Traffic.Served.take (h : w.Served pc) (hp : w.pollerPc = .desched ev ev.filter lt rest)
    (hm : t ∈ w.waiting) (hk : w.waitKey t = eventKey ev.fd ev.filter)
    (hp' : w'.pollerPc = .push t ev ev.filter lt rest) (hW : w'.Waits pc)
    (hw : w'.waiting = w.waiting.erase t) (ha : w'.armed = w.armed) (hf : w'.fired = w.fired)
    (hkey : ∀ u, u ≠ t → w'.waitKey u = w.waitKey u) : w'.Served pc := by
  have hone := h.outstanding_desched hp
  obtain ⟨hsmall, v, hv, hkv, hpv⟩ := h.served ev.fd ev.filter (by omega)
  have hvt : v = t := h.sorted.eq_of_key hv hm (hkv.trans hk.symm)
  have hmem : ∀ u, u ≠ t → u ∈ w.waiting → u ∈ w'.waiting := by
    intro u hut hu
    rw [hw]
    exact (List.mem_erase_of_ne hut).mpr hu
  have ho : ∀ fd e, w.outstanding fd e =
      w'.outstanding fd e + if e = ev.filter ∧ ev.isFor fd e then 1 else 0 :=
    fun fd e => Traffic.outstanding_desched hp (by rw [hp']; rfl) ha hf
  refine { toWaits := hW, once := ?_, served := ?_, registering := ?_, reader := ?_ }
  · intro fd e
    have h₁ := ho fd e
    have h₂ := h.once fd e
    omega
  · intro fd e hpos
    obtain ⟨hsmall', u, hu, hku, hpu⟩ := h.served fd e (by rw [ho]; omega)
    have hut : u ≠ t := by
      rintro rfl
      obtain ⟨rfl, rfl⟩ := eventKey_inj hsmall hsmall' (hk.symm.trans hku)
      have := ho ev.fd ev.filter
      simp [KEvent.isFor] at this
      omega
    exact ⟨hsmall', u, hmem u hut hu, by rw [hkey u hut]; exact hku, hpu⟩
  · intro u fd e hpu
    obtain ⟨hsmall', hu⟩ := h.registering u fd e hpu
    have hut : u ≠ t := by
      rintro rfl
      exact hpv fd e (hvt ▸ hpu)
    exact ⟨hsmall', hmem u hut hu⟩
  · intro ev' rest' h'
    rw [hp'] at h'
    cases h'

theorem Traffic.Served.none (h : w.Served pc) (hp : w.pollerPc = .desched ev dir lt rest)
    (hn : ∀ t ∈ w.waiting, w.waitKey t ≠ eventKey ev.fd dir) :
    { w with pollerPc := .after ev dir none rest }.Served pc := by
  refine h.frame (h.toWaits.frame rfl rfl rfl rfl) rfl rfl ?_ ?_
  · exact fun fd e => Traffic.outstanding_desched_le hp (unhandled_after _ _ _ _) rfl rfl
  · intro ev' rest' h'
    cases dir with
    | read =>
      cases h'
      by_contra hf
      have hr : ev.filter = .read := by
        cases hev : ev.filter
        · rfl
        · exact absurd hev hf
      have hone := h.outstanding_desched (hr ▸ hp)
      obtain ⟨-, u, hu, hku, -⟩ := h.served ev.fd ev.filter (by omega)
      exact hn u hu (by rw [hku, hr])
    | write => exact absurd h' (nextEvent_ne _ _ _ _)

end Desched

theorem IoMove.served (hm : IoMove s.traffic pc l w' pc') (h : s.traffic.Served pc)
    (hl : l.kqueue = true) (ho : s.oneWay l = true) : w'.Served pc' := by
  have hW := hm.waits h.toWaits
  cases hm with
  | keep hpc =>
    refine { toWaits := hW, once := h.once, served := ?_, registering := ?_, reader := h.reader }
    · intro fd e hpos
      obtain ⟨hsmall, t, ht, hk, hp⟩ := h.served fd e hpos
      refine ⟨hsmall, t, ht, hk, fun fd' e' h' => ?_⟩
      obtain hpc | hpc := hpc t
      · exact hp fd' e' (hpc ▸ h')
      · rw [h'] at hpc
        cases hpc
    · intro t fd e hp
      obtain hpc | hpc := hpc t
      · exact h.registering t fd e (hpc ▸ hp)
      · rw [hp] at hpc
        cases hpc
  | add hr hw hi => exact h.add (by simpa [Label.kqueue] using hl) hr hw hi
  | register hp => exact h.register hp hW
  | close => exact h.frame hW rfl rfl (fun fd e => Traffic.outstanding_close_le _) h.reader
  | fire ha => exact h.frame hW rfl rfl (fun fd e => (Traffic.outstanding_fire ha fd e).le) h.reader
  | inject => cases hl
  | kevent hp =>
    apply h.frame hW rfl rfl (fun fd e => (Traffic.outstanding_kevent hp _).le)
    exact fun ev rest h' => absurd h' (nextEvent_ne _ _ _ _)
  | push hp =>
    apply h.frame hW rfl rfl (fun fd e => (Traffic.outstanding_push hp).le)
    simp
  | @account t ev dir ltRead rest hp =>
    apply h.frame hW rfl rfl (fun fd e => (Traffic.outstanding_account hp).le)
    intro ev' rest' h'
    cases dir with
    | read => cases h'
    | write => exact absurd h' (nextEvent_ne _ _ _ _)
  | none hp hn => exact h.none hp hn
  | @take t ev dir ltRead rest hp hmem hk =>
    have hp₀ : s.pollerPc = .desched ev dir ltRead rest := hp
    simp only [State.oneWay, hp₀, decide_eq_true_eq] at ho
    obtain rfl : dir = ev.filter := ho.resolve_right fun hn => hn t hmem hk
    apply h.take hp hmem hk rfl hW rfl rfl rfl
    intro u hut
    cases hev : ev.filter <;> simp [Traffic.waitKey, hut]

theorem schedPushReadyUnsafe_ne_noWaiter (s : State m) (i : Fin (m + 1)) (t : ℕ) :
    schedPushReadyUnsafe s i t ≠ .error .noWaiter := by
  intro h
  unfold schedPushReadyUnsafe at h
  split at h
  · cases h
  · obtain h | ⟨_, -, h⟩ := bind_error h
    · unfold insertReady at h
      split at h <;> cases h
    · cases h

theorem pollerStep_noWaiter (h : pollerStep s = some (.error .noWaiter)) :
    ∃ ev rest, s.pollerPc = .desched ev .write none rest ∧
      ∀ t ∈ s.waiting, s.waitKey t ≠ eventKey ev.fd .write := by
  unfold pollerStep at h
  cases hp : s.pollerPc with
  | poll => simp [hp] at h
  | desched ev dir ltRead rest =>
    simp only [hp] at h
    split at h
    · rename_i hf
      have hn := pollerDeschedEvent_none (by rw [hf])
      cases dir with
      | read => cases h
      | write =>
        cases ltRead with
        | none => exact ⟨ev, rest, rfl, hn⟩
        | some u => simp [handledEvent] at h
    · cases h
  | push t ev dir ltRead rest =>
    simp only [hp] at h
    split at h
    · obtain h | ⟨_, -, h⟩ := bind_error (Option.some.inj h)
      · exact absurd h (schedPushReadyUnsafe_ne_noWaiter _ _ _)
      · cases h
    · cases h
  | account t ev dir ltRead rest =>
    simp only [hp] at h
    cases dir <;> simp [handledEvent] at h

/-- In a run in which no event finds a lthread that waits in the other direction, an event
always finds the lthread that waits for it, and the assertion never fails. -/
theorem event_finds_waiter
    (hr : Runs.Reach step (fun s l => l.kqueue = true ∧ s.oneWay l = true)
      (State.init m clock isOpen) s) :
    (∀ ev rest, s.pollerPc = .desched ev .read none rest →
      ∃ t ∈ s.waiting, ∃ e, s.waitKey t = eventKey ev.fd e) ∧
    pollerStep s ≠ some (.error .noWaiter) := by
  have h : s.traffic.Served s.pc := by
    apply invariant_of_reach (I := fun s => s.traffic.Served s.pc) hr
    · refine { waits_init m clock isOpen with
        once := ?_, served := ?_, registering := ?_, reader := ?_ }
      all_goals rw [init_eq]
      · simp [State.traffic, State.empty, Traffic.outstanding]
      · simp [State.traffic, State.empty, Traffic.outstanding]
      · intro t fd e hp
        by_cases ht : t = 0 <;> simp [ht] at hp
      · simp [State.traffic, State.empty]
    · intro s s' l hr h hl hc
      exact hc.ioMove.served h hl.1 hl.2
    · intro s f h
      exact h
  refine ⟨?_, ?_⟩
  · intro ev rest hp
    have hpos : 0 < s.traffic.outstanding ev.fd ev.filter := by
      refine Traffic.outstanding_pos.mpr (.inr ⟨ev, ?_, rfl, rfl⟩)
      cases hf : ev.filter <;> simp [State.traffic, hp, PollerPc.unhandled, unhandledAfter]
    obtain ⟨-, t, ht, hk, -⟩ := h.served _ _ hpos
    exact ⟨t, ht, ev.filter, hk⟩
  · intro he
    obtain ⟨ev, rest, hp, hn⟩ := pollerStep_noWaiter he
    have hw := h.reader ev rest hp
    have hone := h.outstanding_desched (hw ▸ hp)
    obtain ⟨-, t, ht, hk, -⟩ := h.served ev.fd ev.filter (by omega)
    exact hn t ht (hw ▸ hk)

/-- The main lthread waits for reading and the poller takes up its event. -/
theorem event_finds_waiter_reader : ∃ s : State 0,
    Runs.Reach step (fun s l => l.kqueue = true ∧ s.oneWay l = true)
      (State.init 0 5 fun _ => false) s ∧
    s.pollerPc = .desched ⟨3, .read, false⟩ .read none [] ∧
    ∃ t ∈ s.waiting, ∃ e, s.waitKey t = eventKey 3 e := by
  obtain ⟨s, hr, hp⟩ : ∃ s : State 0,
      Runs.Reach step (fun s l => l.kqueue = true ∧ s.oneWay l = true)
        (State.init 0 5 fun _ => false) s ∧
      s.pollerPc = .desched ⟨3, .read, false⟩ .read none [] :=
    Runs.exists_reach_of_run (Label.scheds 0 5 ++ [.call 0 (.socket 3),
      .call 0 (.waitFd 3 .read), .cont 0, .fire 3 .read false, .kevent 1]) (by decide +kernel)
  obtain ⟨t, ht, e, hk⟩ := (event_finds_waiter hr).1 _ _ hp
  exact ⟨s, hr, hp, t, ht, e, hk⟩

/-- A reader and a writer wait on one descriptor and both registrations fire. The first
event wakes both lthreads and the second one finds nobody. -/
theorem event_without_waiter : ∃ s : State 0,
    Runs.Reach step (fun _ l => l.kqueue = true) (State.init 0 5 fun _ => false) s ∧
    pollerStep s = some (.error .noWaiter) := by
  obtain ⟨s, hr, hp, hw⟩ : ∃ s : State 0,
      Runs.Reach step (fun _ l => l.kqueue = true) (State.init 0 5 fun _ => false) s ∧
      s.pollerPc = .desched ⟨3, .write, false⟩ .write none [] ∧ s.waiting = [] :=
    Runs.exists_reach_of_run (Label.scheds 0 5 ++ [.call 0 (.socket 3), .call 0 .spawn,
      .call 0 (.waitFd 3 .read), .cont 0] ++ Label.scheds 0 6 ++ [.call 0 (.waitFd 3 .write),
      .cont 0, .fire 3 .read false, .fire 3 .write false, .kevent 2] ++
      List.replicate 7 .poller) (by decide +kernel)
  refine ⟨s, hr, ?_⟩
  simp [pollerStep, hp, pollerDeschedEvent, OrderedTree.find, hw, handledEvent]

end Lthread
