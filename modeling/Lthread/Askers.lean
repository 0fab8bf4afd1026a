import Lthread.PollerBooks

namespace Lthread

open Function (update update_apply)

variable {m : ℕ}

/-- What the waiting tree does not keep: the arguments of the last `_lthread_wait_fd` call of
each lthread, how often each descriptor has been closed, and how often the descriptor of the
call had been when the call was made. -/
structure WaitHistory where
  call : ℕ → Option (ℕ × Event)
  closes : ℕ → ℕ
  closesAt : ℕ → ℕ

def WaitHistory.empty : WaitHistory := ⟨fun _ => none, fun _ => 0, fun _ => 0⟩

def WaitHistory.note (h : WaitHistory) (s : State m) (l : Label m) (s' : State m) : WaitHistory :=
  if s'.fault.isSome then h
  else
    match l with
    | .call i (.waitFd fd e) =>
      match ltCurrent s i with
      | some t => { h with
          call := update h.call t (some (fd, e))
          closesAt := update h.closesAt t (h.closes fd) }
      | none => h
    | .call _ (.close fd) => { h with closes := update h.closes fd (h.closes fd + 1) }
    | _ => h

abbrev stepWaits : State m × WaitHistory → Label m → Option (State m × WaitHistory) :=
  Runs.withHistory step WaitHistory.note

variable {s s' : State m} {l : Label m} {h : WaitHistory} {i : Fin (m + 1)} {t u fd : ℕ} {e : Event}
  {clock : ℕ} {isOpen : ℕ → Bool}

theorem StepCase.joins (hc : StepCase s l s') (hn : t ∉ s.waiting) (ht : t ∈ s'.waiting) :
    ∃ i fd e s₁, l = .call i (.waitFd fd e) ∧ ltCurrent s i = some t ∧
      pollerAddWaitingLthread s t fd e = .ok s₁ ∧
      s' = { s₁ with pc := update s₁.pc t (.register fd e) } := by
  obtain hf | rfl | ⟨i, hl⟩ := hc.io_frame
  · rw [hf.waiting] at ht
    exact absurd ht hn
  · cases hc with
    | deschedNone hp hf hs | account hp hs =>
      rw [handledEvent_ok hs] at ht
      exact absurd ht hn
    | deschedSome hp hf =>
      obtain ⟨-, -, hs⟩ := pollerDeschedEvent_some hf
      rw [hs] at ht
      exact absurd (List.mem_of_mem_erase ht) hn
    | push hp hf hs =>
      obtain ⟨-, rfl⟩ | ⟨-, rfl⟩ := schedPushReadyUnsafe_ok hs <;> exact absurd ht hn
  · obtain ⟨hw, -⟩ | ⟨u, fd, e, s₁, hl, hcur, -, h₁, rfl⟩ := hc.waiting_frame hl
    · rw [hw] at ht
      exact absurd ht hn
    · have hut : t = u := by
        obtain ⟨-, -, waiting, hi, rfl⟩ := pollerAddWaitingLthread_ok h₁
        exact (List.mem_cons.mp ((OrderedTree.insert_perm hi).mem_iff.mp ht)).resolve_right hn
      subst hut
      exact ⟨i, fd, e, s₁, hl, hcur, h₁, rfl⟩

theorem StepCase.waitFd_ok (hc : StepCase s (.call i (.waitFd fd e)) s') :
    ∃ t s₁, ltCurrent s i = some t ∧ s.pc t = .user ∧ pollerAddWaitingLthread s t fd e = .ok s₁ := by
  generalize hl : Label.call i (.waitFd fd e) = l at hc
  cases hc with
  | waitFd hcur hp h₁ =>
    cases hl
    exact ⟨_, _, hcur, hp, h₁⟩
  | @condSignal _ _ _ next => cases next <;> cases hl
  | _ => cases hl

theorem WaitHistory.note_of_not_call
    (hn : ∀ i fd e, l = .call i (.waitFd fd e) → ltCurrent s i ≠ some t) :
    (h.note s l s').call t = h.call t ∧ (h.note s l s').closesAt t = h.closesAt t := by
  unfold WaitHistory.note
  split
  · exact ⟨rfl, rfl⟩
  · split
    · rename_i i fd e
      split
      · rename_i u hcur
        have hut : t ≠ u := by
          rintro rfl
          exact hn i fd e rfl hcur
        exact ⟨Function.update_of_ne hut .., Function.update_of_ne hut ..⟩
      · exact ⟨rfl, rfl⟩
    · exact ⟨rfl, rfl⟩
    · exact ⟨rfl, rfl⟩

theorem WaitHistory.note_of_mem (hB : s.traffic.Bits) (hc : StepCase s l s') (ht : t ∈ s.waiting) :
    (h.note s l s').call t = h.call t ∧ (h.note s l s').closesAt t = h.closesAt t := by
  apply note_of_not_call
  rintro i fd e rfl hcur
  obtain ⟨u, s₁, hu, -, h₁⟩ := hc.waitFd_ok
  cases hcur.symm.trans hu
  obtain ⟨hr, hw, -⟩ := pollerAddWaitingLthread_ok h₁
  exact hB.one t ht (hr.trans hw.symm)

theorem WaitHistory.note_waitFd (hcur : ltCurrent s i = some t) (hf : s'.fault = none) :
    h.note s (.call i (.waitFd fd e)) s' = { h with
      call := update h.call t (some (fd, e))
      closesAt := update h.closesAt t (h.closes fd) } := by
  simp [WaitHistory.note, hcur, hf]

def WaitHistory.Keyed (h : WaitHistory) (s : State m) : Prop :=
  ∀ t ∈ s.waiting, ∃ fd e, h.call t = some (fd, e) ∧ s.waitKey t = eventKey fd e

theorem WaitHistory.Keyed.step (hK : h.Keyed s) (hW : s.traffic.Waits s.pc) (hB : s.traffic.Bits)
    (hf : s.fault = none) (hc : StepCase s l s') : (h.note s l s').Keyed s' := by
  intro t ht'
  by_cases ht : t ∈ s.waiting
  · obtain ⟨fd, e, hcall, hk⟩ := hK t ht
    refine ⟨fd, e, (note_of_mem hB hc ht).1.trans hcall, ?_⟩
    obtain ⟨h₁, h₂, -⟩ := hc.ioMove.key_eq hW hB ht ht'
    simp only [State.traffic] at h₁ h₂
    rw [← hk, State.waitKey, h₁, h₂, State.waitKey]
  · obtain ⟨i, fd, e, s₁, rfl, hcur, h₁, hs⟩ := hc.joins ht ht'
    refine ⟨fd, e, ?_, ?_⟩
    · rw [note_waitFd hcur (hc.fault.trans hf)]
      exact Function.update_self ..
    · have hkey := (hc.ioMove.waits hW).key t ht' fd e (.inl ?_)
      · exact hkey
      · rw [hs]
        exact Function.update_self ..

theorem reach_of_stepWaits {ok : State m × WaitHistory → Label m → Prop}
    {p : State m × WaitHistory} (hr : Runs.Reach stepWaits ok (State.init m clock isOpen, .empty) p) :
    Runs.Reach step (fun _ _ => True) (State.init m clock isOpen) p.1 :=
  hr.forget fun _ _ _ => trivial

theorem keyed_of_reach {ok : State m × WaitHistory → Label m → Prop} {p : State m × WaitHistory}
    (hr : Runs.Reach stepWaits ok (State.init m clock isOpen, .empty) p) : p.2.Keyed p.1 := by
  apply hr.history (I := fun s h => h.Keyed s)
  · rw [init_eq]
    intro t ht
    cases ht
  · intro s s' h l hr hK hl hs
    obtain ⟨hW, hB⟩ := waits_of_reach (reach_of_stepWaits hr)
    obtain ⟨hf, hc | ⟨f, he, rfl⟩⟩ := step_cases hs
    · exact hK.step hW hB hf hc
    · exact hK

/-- The lthread waits for another descriptor with the lower 16 bits of `fd`. -/
def WaitHistory.clashes (h : WaitHistory) (fd : ℕ) (e : Event) (u : ℕ) : Bool :=
  match h.call u with
  | some (fd', e') => fd' ≠ fd && fd' % 65536 = fd % 65536 && e' = e
  | none => false

theorem WaitHistory.Keyed.waitKey_eq_iff (hK : h.Keyed s) (hu : u ∈ s.waiting) :
    s.waitKey u = eventKey fd e ↔ h.call u = some (fd, e) ∨ h.clashes fd e u = true := by
  obtain ⟨fd', e', hcall, hk⟩ := hK u hu
  rw [hk, eventKey_eq_iff, WaitHistory.clashes, hcall]
  simp only [Option.some.injEq, Prod.mk.injEq, ne_eq, Bool.and_eq_true, decide_eq_true_eq]
  constructor
  · rintro ⟨hfd, rfl⟩
    by_cases heq : fd' = fd
    · exact .inl ⟨heq, rfl⟩
    · exact .inr ⟨⟨by simpa using heq, hfd⟩, rfl⟩
  · rintro (⟨rfl, rfl⟩ | ⟨⟨-, hfd⟩, he⟩)
    · exact ⟨rfl, rfl⟩
    · exact ⟨hfd, he⟩

theorem pollerAddWaitingLthread_waitKey (hW : s.traffic.Waits s.pc) (hB : s.traffic.Bits)
    (ht : t ∉ s.waiting) : pollerAddWaitingLthread s t fd e = .error .waitKey ↔
      ∃ u ∈ s.waiting, s.waitKey u = eventKey fd e := by
  obtain ⟨hr, hw⟩ := hB.none t ht
  have hk : ∀ u ∈ s.waiting, (s.traffic.withWait t fd e).waitKey u = s.waitKey u := by
    intro u hu
    obtain ⟨h₁, -, h₂⟩ := s.traffic.withWait_of_ne fd e (ne_of_mem_of_not_mem hu ht)
    unfold Traffic.waitKey
    rw [h₁, h₂]
    rfl
  have hself : (s.traffic.withWait t fd e).waitKey t = eventKey fd e :=
    Traffic.withWait_waitKey_self hr
  have hins : OrderedTree.insert (s.traffic.withWait t fd e).waitKey t s.waiting = none ↔
      ∃ u ∈ s.waiting, s.waitKey u = eventKey fd e := by
    have hsorted : OrderedTree.Sorted (s.traffic.withWait t fd e).waitKey s.waiting :=
      OrderedTree.Sorted.congr hW.sorted hk
    rw [hsorted.insert_eq_none_iff, hself]
    refine exists_congr fun u => and_congr_right fun hu => ?_
    rw [hk u hu]
  rw [← hins]
  simp only [State.traffic] at hr hw
  simp only [pollerAddWaitingLthread, hr, hw, Bool.or_self, Bool.false_eq_true, ↓reduceIte]
  cases e with
  | read | write =>
    dsimp only
    split
    · rename_i hn
      exact ⟨fun _ => hn, fun _ => rfl⟩
    · rename_i hi
      refine ⟨fun h => (by cases h), fun hn => ?_⟩
      cases hi.symm.trans hn

theorem IoMove.leaves {w w' : Traffic} {pc pc' : ℕ → Pc} (hm : IoMove w pc l w' pc')
    (hW : w.Waits pc) (hu : u ∈ w.waiting) (hn : u ∉ w'.waiting) :
    l = .poller ∧ ∃ ev dir ltRead rest, w.pollerPc = .desched ev dir ltRead rest ∧
      w.waitKey u = eventKey ev.fd dir ∧ w'.pollerPc = .push u ev dir ltRead rest := by
  cases hm with
  | keep | register | close | fire | inject | kevent | none | push | account => exact absurd hu hn
  | add hr hw hi => exact absurd ((OrderedTree.insert_perm hi).mem_iff.mpr (.tail _ hu)) hn
  | @take t ev dir ltRead rest hp hmem hk =>
    have hut : u = t := by
      by_contra hut
      exact hn (hW.sorted.nodup.mem_erase_iff.mpr ⟨hut, hu⟩)
    subst hut
    exact ⟨rfl, ev, dir, ltRead, rest, hp, hk, rfl⟩

theorem step_desched {ev : KEvent} {dir : Event} {ltRead : Option ℕ} {rest : List KEvent}
    (hW : s.traffic.Waits s.pc) (hp : s.pollerPc = .desched ev dir ltRead rest)
    (hu : u ∈ s.waiting) (hk : s.waitKey u = eventKey ev.fd dir) (hs : step s .poller = some s') :
    u ∉ s'.waiting := by
  have hd : (pollerDeschedEvent s ev.fd dir).1 = some u := by
    have hsorted : OrderedTree.Sorted s.waitKey s.waiting := hW.sorted
    have hfind := hsorted.find_eq_some_iff.mpr ⟨hu, hk⟩
    unfold pollerDeschedEvent
    rw [show (fdKey (BitVec.ofNat 16 ev.fd) (dir = .read)).toNat = eventKey ev.fd dir from rfl, hfind]
  obtain ⟨-, hc | ⟨f, he, -⟩⟩ := step_cases hs
  · cases hc with
    | deschedNone hp' hf _ =>
      rw [hp] at hp'
      cases hp'
      rw [hd] at hf
      cases hf
    | deschedSome hp' hf =>
      rw [hp] at hp'
      cases hp'
      rw [hd] at hf
      cases hf
      rw [(pollerDeschedEvent_some hd).2.2]
      exact fun hmem => (hW.sorted.nodup.mem_erase_iff.mp hmem).1 rfl
    | push hp' _ _ | account hp' _ =>
      rw [hp] at hp'
      cases hp'
  · cases hfind : pollerDeschedEvent s ev.fd dir with
    | mk lt s₁ =>
      rw [hfind] at hd
      cases hd
      simp [exec, pollerStep, hp, hfind] at he

variable {p p' : State m × WaitHistory}

/-- A lthread that calls `_lthread_wait_fd` is not in the tree, and nobody is there for what it
asks for. -/
def distinctWaits (p : State m × WaitHistory) : Label m → Bool
  | .call i (.waitFd fd e) =>
    decide ((∀ t ∈ ltCurrent p.1 i, t ∉ p.1.waiting) ∧ ∀ u ∈ p.1.waiting, p.2.call u ≠ some (fd, e))
  | _ => true

/-- A call of `_lthread_wait_fd`, and the look for the lthread of an event, finds nobody in the
tree who waits in that direction for another descriptor with the same lower 16 bits. -/
def unclashed (p : State m × WaitHistory) : Label m → Bool
  | .call _ (.waitFd fd e) => decide (∀ u ∈ p.1.waiting, p.2.clashes fd e u = false)
  | .poller =>
    match p.1.pollerPc with
    | .desched ev dir _ _ => decide (∀ u ∈ p.1.waiting, p.2.clashes ev.fd dir u = false)
    | _ => true
  | _ => true

/-- The step inserts its waiter, and it takes out of the tree, to be woken, the lthread that
has asked for the event it deals with and nobody else. The poller has in its hands only whom it
has taken out; it puts that lthread in its ready queue, or sets `needs_resched`, and touches no
other one. -/
structure ReachesAskers (p : State m × WaitHistory) (l : Label m) (p' : State m × WaitHistory) :
    Prop where
  inserts : ∀ i t fd e, l = .call i (.waitFd fd e) → ltCurrent p.1 i = some t →
    pollerAddWaitingLthread p.1 t fd e ≠ .error .waitKey
  only : ∀ u ∈ p.1.waiting, u ∉ p'.1.waiting → l = .poller ∧ ∃ ev dir ltRead rest,
    p.1.pollerPc = .desched ev dir ltRead rest ∧ p.2.call u = some (ev.fd, dir) ∧
    p'.1.pollerPc = .push u ev dir ltRead rest
  all : ∀ ev dir ltRead rest, l = .poller → p.1.pollerPc = .desched ev dir ltRead rest →
    ∀ u ∈ p.1.waiting, p.2.call u = some (ev.fd, dir) → u ∉ p'.1.waiting
  hands : ∀ u ev dir ltRead rest, p'.1.pollerPc = .push u ev dir ltRead rest →
    p'.1.pollerPc = p.1.pollerPc ∨ u ∈ p.1.waiting ∧ u ∉ p'.1.waiting
  wakes : ∀ u ev dir ltRead rest, l = .poller → p.1.pollerPc = .push u ev dir ltRead rest →
    p'.1.fault = none → u ∈ p'.1.ready (p.1.sched u) ∨ p'.1.needsResched u = true
  others : l = .poller → ∀ v, (∀ ev dir ltRead rest, p.1.pollerPc ≠ .push v ev dir ltRead rest) →
    (∀ k, v ∈ p'.1.ready k ↔ v ∈ p.1.ready k) ∧ p'.1.needsResched v = p.1.needsResched v

theorem IoMove.hands {w w' : Traffic} {pc pc' : ℕ → Pc} {ev : KEvent} {dir : Event}
    {ltRead : Option ℕ} {rest : List KEvent} (hm : IoMove w pc l w' pc') (hW : w.Waits pc)
    (hp : w'.pollerPc = .push u ev dir ltRead rest) :
    w'.pollerPc = w.pollerPc ∨ u ∈ w.waiting ∧ u ∉ w'.waiting := by
  cases hm with
  | keep | add | register | close | fire | inject => exact .inl rfl
  | @kevent _ k _ =>
    dsimp only at hp
    cases hl : w.fired.take k <;> rw [hl] at hp <;> cases hp
  | take hp' hmem hk =>
    cases hp
    exact .inr ⟨hmem, fun h => (hW.sorted.nodup.mem_erase_iff.mp h).1 rfl⟩
  | @none ev' dir' _ rest' _ _ =>
    cases dir' <;> cases rest' <;> cases hp
  | push => cases hp
  | @account _ ev' dir' _ rest' _ =>
    cases dir' <;> cases rest' <;> cases hp

theorem StepCase.poller_wakes (h : StepCase s .poller s') (v : ℕ) :
    (∀ ev dir ltRead rest, s.pollerPc = .push v ev dir ltRead rest →
      v ∈ s'.ready (s.sched v) ∨ s'.needsResched v = true) ∧
    ((∀ ev dir ltRead rest, s.pollerPc ≠ .push v ev dir ltRead rest) →
      (∀ k, v ∈ s'.ready k ↔ v ∈ s.ready k) ∧ s'.needsResched v = s.needsResched v) := by
  cases h with
  | deschedNone hp hf h | account hp h =>
    rw [handledEvent_ok h]
    refine ⟨fun _ _ _ _ hp' => ?_, fun _ => ⟨fun _ => Iff.rfl, rfl⟩⟩
    cases hp.symm.trans hp'
  | deschedSome hp hf =>
    rw [(pollerDeschedEvent_some hf).2.2]
    refine ⟨fun _ _ _ _ hp' => ?_, fun _ => ⟨fun _ => Iff.rfl, rfl⟩⟩
    cases hp.symm.trans hp'
  | @push t ev dir ltRead rest _ hp hf h =>
    constructor
    · intro _ _ _ _ hp'
      cases hp.symm.trans hp'
      obtain ⟨-, rfl⟩ | ⟨-, rfl⟩ := schedPushReadyUnsafe_ok h
      · exact .inr (Function.update_self ..)
      · exact .inl (by simp [schedWakeUnsafe])
    · intro hv
      have hvt : v ≠ t := fun hvt => hv ev dir ltRead rest (hvt ▸ hp)
      obtain ⟨-, rfl⟩ | ⟨-, rfl⟩ := schedPushReadyUnsafe_ok h
      · exact ⟨fun _ => Iff.rfl, Function.update_of_ne hvt ..⟩
      · refine ⟨fun k => ?_, rfl⟩
        simp only [schedWakeUnsafe, update_apply]
        split
        · rename_i hk
          simp [hk, hvt]
        · rfl

theorem current_of_step_call {op : Op} (hs : step s (.call i op) = some s') :
    ∃ t, ltCurrent s i = some t := by
  cases hc : ltCurrent s i with
  | some t => exact ⟨t, rfl⟩
  | none => simp [step, exec, hc] at hs

theorem reachesAskers_iff {ok : State m × WaitHistory → Label m → Prop}
    (hr : Runs.Reach stepWaits ok (State.init m clock isOpen, .empty) p)
    (hs : stepWaits p l = some p') (hd : distinctWaits p l = true) :
    ReachesAskers p l p' ↔ unclashed p l = true := by
  obtain ⟨hW, hB⟩ := waits_of_reach (reach_of_stepWaits hr)
  have hK := keyed_of_reach hr
  have hstep := (Runs.withHistory_eq_some.mp hs).1
  constructor
  · intro h
    cases l with
    | call i op =>
      cases op with
      | waitFd fd e =>
        obtain ⟨t, hcur⟩ := current_of_step_call hstep
        simp only [distinctWaits, decide_eq_true_eq] at hd
        have hno := h.inserts i t fd e rfl hcur
        rw [ne_eq, pollerAddWaitingLthread_waitKey hW hB (hd.1 t hcur)] at hno
        simp only [unclashed, decide_eq_true_eq]
        intro u hu
        by_contra hcl
        exact hno ⟨u, hu, (hK.waitKey_eq_iff hu).mpr (.inr (by simpa using hcl))⟩
      | _ => rfl
    | poller =>
      simp only [unclashed]
      split
      · rename_i ev dir ltRead rest hp
        rw [decide_eq_true_eq]
        intro u hu
        by_contra hcl
        have hclash : p.2.clashes ev.fd dir u = true := by simpa using hcl
        have hk := (hK.waitKey_eq_iff hu).mpr (.inr hclash)
        obtain ⟨-, ev', dir', _, _, hp', hcall, -⟩ := h.only u hu (step_desched hW hp hu hk hstep)
        rw [hp] at hp'
        cases hp'
        simp [WaitHistory.clashes, hcall] at hclash
      · rfl
    | _ => rfl
  · intro hu
    refine {
      inserts := ?_, only := ?_, all := ?_, hands := ?_, wakes := ?_, others := ?_ }
    · rintro i t fd e rfl hcur herr
      simp only [distinctWaits, decide_eq_true_eq] at hd
      simp only [unclashed, decide_eq_true_eq] at hu
      obtain ⟨u, hmem, hk⟩ := (pollerAddWaitingLthread_waitKey hW hB (hd.1 t hcur)).mp herr
      obtain hcall | hclash := (hK.waitKey_eq_iff hmem).mp hk
      · exact hd.2 u hmem hcall
      · exact Bool.false_ne_true ((hu u hmem).symm.trans hclash)
    · intro u hmem hn
      obtain ⟨-, hc | ⟨f, -, hf⟩⟩ := step_cases hstep
      · obtain ⟨rfl, ev, dir, ltRead, rest, hp, hk, hp'⟩ := hc.ioMove.leaves hW hmem hn
        have hp₀ : p.1.pollerPc = .desched ev dir ltRead rest := hp
        simp only [unclashed, hp₀, decide_eq_true_eq] at hu
        refine ⟨rfl, ev, dir, ltRead, rest, hp, ?_, hp'⟩
        refine ((hK.waitKey_eq_iff hmem).mp hk).resolve_right fun hclash => ?_
        exact Bool.false_ne_true ((hu u hmem).symm.trans hclash)
      · rw [hf] at hn
        exact absurd hmem hn
    · rintro ev dir ltRead rest rfl hp u hmem hcall
      exact step_desched hW hp hmem ((hK.waitKey_eq_iff hmem).mpr (.inl hcall)) hstep
    · intro u ev dir ltRead rest hp
      obtain ⟨-, hc | ⟨f, -, hf⟩⟩ := step_cases hstep
      · exact hc.ioMove.hands hW hp
      · exact .inl (by rw [hf])
    · rintro u ev dir ltRead rest rfl hp hn
      obtain ⟨-, hc | ⟨f, -, hf⟩⟩ := step_cases hstep
      · exact (hc.poller_wakes u).1 ev dir ltRead rest hp
      · rw [hf] at hn
        cases hn
    · rintro rfl v hv
      obtain ⟨-, hc | ⟨f, -, hf⟩⟩ := step_cases hstep
      · exact (hc.poller_wakes v).2 hv
      · rw [hf]
        exact ⟨fun _ => Iff.rfl, rfl⟩

/-- A run in which lthreads wait on distinct pairs of descriptor and direction inserts every
waiter and wakes exactly the lthreads that have asked, if and only if no two of the
descriptors that meet in it differ above the lower 16 bits only. -/
theorem events_reach_askers_iff (clock : ℕ) (isOpen : ℕ → Bool) (ls : List (Label m)) :
    Runs.Along stepWaits (fun p l p' => distinctWaits p l = true → ReachesAskers p l p')
      (State.init m clock isOpen, .empty) ls ↔
    Runs.Along stepWaits (fun p l _ => distinctWaits p l = true → unclashed p l = true)
      (State.init m clock isOpen, .empty) ls := by
  have h₀ : Runs.Reach stepWaits (fun _ _ => True) (State.init m clock isOpen, .empty)
      (State.init m clock isOpen, .empty) := .init
  refine Runs.along_congr h₀ (fun hr hs => hr.next trivial hs) ?_ ls
  exact fun hr hs => forall_congr' fun hd => reachesAskers_iff hr hs hd

/-- One lthread waits for reading on descriptor 3 and another one asks for descriptor 65539. -/
theorem events_clash : ∃ p : State 0 × WaitHistory,
    Runs.Reach stepWaits (fun p l => distinctWaits p l = true)
      (State.init 0 5 fun _ => false, .empty) p ∧
    (p.1.isOpen 3 = true ∧ p.1.isOpen 65539 = true ∧ p.1.waiting = [0] ∧
      p.2.call 0 = some (3, .read)) ∧
    p.1.fault = some .waitKey :=
  Runs.exists_reach_of_run (Q := fun p : State 0 × WaitHistory =>
      (p.1.isOpen 3 = true ∧ p.1.isOpen 65539 = true ∧ p.1.waiting = [0] ∧
        p.2.call 0 = some (3, .read)) ∧ p.1.fault = some .waitKey)
    (Label.scheds 0 5 ++ [.call 0 (.socket 3), .call 0 (.socket 65539), .call 0 .spawn,
      .call 0 (.waitFd 3 .read), .cont 0] ++ Label.scheds 0 6 ++ [.call 0 (.waitFd 65539 .read)])
    (by decide +kernel)

end Lthread
