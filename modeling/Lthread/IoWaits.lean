import Lthread.IoMoves

namespace Lthread

open Function (update update_apply)

variable {m : ℕ} {l : Label m} {w w' : Traffic} {pc pc' : ℕ → Pc} {t fd : ℕ}
  {e : Event}

def unhandledAfter (ev : KEvent) (dir : Event) (rest : List KEvent) (e : Event) : List KEvent :=
  if dir = .read ∧ e = .write then ev :: rest else rest

def PollerPc.unhandled : PollerPc → Event → List KEvent
  | .poll, _ => []
  | .desched ev dir _ rest, e => (if e = dir then [ev] else []) ++ unhandledAfter ev dir rest e
  | .push _ ev dir _ rest, e | .account _ ev dir _ rest, e => unhandledAfter ev dir rest e

def KEvent.isFor (fd : ℕ) (e : Event) (ev : KEvent) : Bool := ev.fd = fd && ev.filter = e

def Traffic.outstanding (w : Traffic) (fd : ℕ) (e : Event) : ℕ :=
  (w.armed fd e).toNat + w.fired.countP (KEvent.isFor fd e) +
    (w.pollerPc.unhandled e).countP (KEvent.isFor fd e)

theorem Traffic.outstanding_pos : 0 < w.outstanding fd e ↔
    w.armed fd e = true ∨ ∃ ev ∈ w.fired ++ w.pollerPc.unhandled e, ev.fd = fd ∧ ev.filter = e := by
  have hex : (∃ ev ∈ w.fired ++ w.pollerPc.unhandled e, ev.fd = fd ∧ ev.filter = e) ↔
      0 < (w.fired ++ w.pollerPc.unhandled e).countP (KEvent.isFor fd e) := by
    rw [List.countP_pos_iff]
    simp [KEvent.isFor]
  rw [hex, List.countP_append, Traffic.outstanding]
  cases w.armed fd e
  · simp only [Bool.toNat_false, Bool.false_eq_true, false_or]
    omega
  · simp only [Bool.toNat_true, true_or, iff_true]
    omega

section Moves

@[simp]
theorem unhandled_poll : PollerPc.poll.unhandled e = [] := rfl

@[simp]
theorem unhandled_nextEvent (rest : List KEvent) (e : Event) :
    (nextEvent rest).unhandled e = rest := by
  cases rest <;> cases e <;> rfl

theorem unhandled_after (ev : KEvent) (dir : Event) (lt : Option ℕ) (rest : List KEvent) :
    (PollerPc.after ev dir lt rest).unhandled e = unhandledAfter ev dir rest e := by
  cases dir
  · cases e <;> rfl
  · simp [PollerPc.after, unhandledAfter]

section

variable {ev : KEvent} {dir : Event} {lt : Option ℕ} {rest : List KEvent}

theorem Traffic.outstanding_desched (hp : w.pollerPc = .desched ev dir lt rest)
    (hp' : w'.pollerPc.unhandled e = unhandledAfter ev dir rest e)
    (ha : w'.armed = w.armed) (hf : w'.fired = w.fired) :
    w.outstanding fd e = w'.outstanding fd e + if e = dir ∧ ev.isFor fd e then 1 else 0 := by
  unfold Traffic.outstanding
  rw [hp', ha, hf, hp, PollerPc.unhandled, List.countP_append]
  by_cases hd : e = dir
  · subst hd
    by_cases hev : KEvent.isFor fd e ev = true
    · simp [hev]
      omega
    · simp [hev]
  · simp [hd]

theorem Traffic.outstanding_desched_of_not (hp : w.pollerPc = .desched ev dir lt rest)
    (hp' : w'.pollerPc.unhandled e = unhandledAfter ev dir rest e)
    (ha : w'.armed = w.armed) (hf : w'.fired = w.fired) (hne : ¬ (e = dir ∧ ev.fd = fd)) :
    w.outstanding fd e = w'.outstanding fd e := by
  rw [Traffic.outstanding_desched hp hp' ha hf, if_neg, Nat.add_zero]
  rintro ⟨he, hev⟩
  simp only [KEvent.isFor, Bool.and_eq_true, decide_eq_true_eq] at hev
  exact hne ⟨he, hev.1⟩

theorem Traffic.outstanding_desched_le (hp : w.pollerPc = .desched ev dir lt rest)
    (hp' : w'.pollerPc.unhandled e = unhandledAfter ev dir rest e)
    (ha : w'.armed = w.armed) (hf : w'.fired = w.fired) :
    w'.outstanding fd e ≤ w.outstanding fd e := by
  rw [Traffic.outstanding_desched hp hp' ha hf]
  exact Nat.le_add_right _ _

theorem Traffic.outstanding_push (hp : w.pollerPc = .push t ev dir lt rest) :
    { w with pollerPc := .account t ev dir lt rest }.outstanding fd e = w.outstanding fd e := by
  unfold Traffic.outstanding
  rw [hp]
  rfl

theorem Traffic.outstanding_account (hp : w.pollerPc = .account t ev dir lt rest) :
    { w with pollerPc := .after ev dir (some t) rest }.outstanding fd e = w.outstanding fd e := by
  unfold Traffic.outstanding
  rw [hp, unhandled_after]
  rfl

end

theorem Traffic.outstanding_fire {isEof : Bool} (ha : w.armed fd e = true) (fd' : ℕ) (e' : Event) :
    { w with
      armed := update w.armed fd (update (w.armed fd) e false)
      fired := w.fired ++ [KEvent.mk fd e isEof] }.outstanding fd' e' = w.outstanding fd' e' := by
  unfold Traffic.outstanding
  by_cases hfd : fd = fd'
  · subst hfd
    by_cases he : e = e'
    · subst he
      simp [KEvent.isFor, ha]
      omega
    · simp [KEvent.isFor, he, Ne.symm he]
  · simp [KEvent.isFor, hfd, Ne.symm hfd]

theorem Traffic.outstanding_register (fd' : ℕ) (e' : Event) :
    { w with armed := update w.armed fd (update (w.armed fd) e true) }.outstanding fd' e' =
      w.outstanding fd' e' + if fd' = fd ∧ e' = e ∧ w.armed fd e = false then 1 else 0 := by
  unfold Traffic.outstanding
  by_cases hfd : fd' = fd
  · subst hfd
    by_cases he : e' = e
    · subst he
      cases h : w.armed fd' e'
      · simp
        omega
      · simp
    · simp [he]
  · simp [hfd]

theorem Traffic.outstanding_kevent (hp : w.pollerPc = .poll) (k : ℕ) :
    { w with
      pollerPc := nextEvent (w.fired.take k), fired := w.fired.drop k }.outstanding fd e =
      w.outstanding fd e := by
  unfold Traffic.outstanding
  have hk : w.fired.countP (KEvent.isFor fd e) =
      (w.fired.take k).countP (KEvent.isFor fd e) + (w.fired.drop k).countP (KEvent.isFor fd e) := by
    rw [← List.countP_append, List.take_append_drop]
  simp only [unhandled_nextEvent, hp, unhandled_poll, List.countP_nil]
  omega

theorem Traffic.outstanding_close_le (fd' : ℕ) :
    { w with
      armed := update w.armed fd' fun _ => false
      fired := w.fired.filter fun ev => ev.fd ≠ fd' }.outstanding fd e ≤ w.outstanding fd e := by
  have hf : (w.fired.filter fun ev => ev.fd ≠ fd').countP (KEvent.isFor fd e) ≤
      w.fired.countP (KEvent.isFor fd e) := List.filter_sublist.countP_le
  have ha : ((update w.armed fd' fun _ => false) fd e).toNat ≤ (w.armed fd e).toNat := by
    by_cases hfd : fd = fd' <;> simp [hfd]
  exact Nat.add_le_add (Nat.add_le_add ha hf) le_rfl

theorem Traffic.outstanding_close_of_ne {fd' : ℕ} (h : fd ≠ fd') :
    { w with
      armed := update w.armed fd' fun _ => false
      fired := w.fired.filter fun ev => ev.fd ≠ fd' }.outstanding fd e = w.outstanding fd e := by
  have hf : (w.fired.filter fun ev => ev.fd ≠ fd').countP (KEvent.isFor fd e) =
      w.fired.countP (KEvent.isFor fd e) := by
    rw [List.countP_filter]
    refine List.countP_congr fun ev _ => ?_
    simp only [KEvent.isFor, Bool.and_eq_true, decide_eq_true_eq]
    constructor
    · exact fun hev => hev.1
    · rintro ⟨rfl, he⟩
      exact ⟨⟨rfl, he⟩, h⟩
  unfold Traffic.outstanding
  simp only [hf, Function.update_of_ne h]

end Moves

structure Traffic.Waits (w : Traffic) (pc : ℕ → Pc) : Prop where
  sorted : OrderedTree.Sorted w.waitKey w.waiting
  bits : ∀ t ∈ w.waiting, w.stWaitRead t = true ∨ w.stWaitWrite t = true
  key : ∀ t ∈ w.waiting, ∀ fd e, pc t = .register fd e ∨ pc t = .waitFd fd e →
    w.waitKey t = eventKey fd e

theorem Traffic.Waits.mono (h : w.Waits pc) (hw : w'.waiting.Sublist w.waiting)
    (hf : ∀ t ∈ w'.waiting, w'.stWaitRead t = w.stWaitRead t ∧
      w'.stWaitWrite t = w.stWaitWrite t ∧ w'.fdWait t = w.fdWait t)
    (hpc : ∀ t ∈ w'.waiting, ∀ fd e, pc' t = .register fd e ∨ pc' t = .waitFd fd e →
      pc t = .register fd e ∨ pc t = .waitFd fd e) : w'.Waits pc' := by
  have hk : ∀ t ∈ w'.waiting, w'.waitKey t = w.waitKey t := by
    intro t ht
    obtain ⟨h₁, -, h₂⟩ := hf t ht
    unfold Traffic.waitKey
    rw [h₁, h₂]
  refine { sorted := ?_, bits := ?_, key := ?_ }
  · exact OrderedTree.Sorted.congr (h.sorted.sublist hw) hk
  · intro t ht
    obtain ⟨h₁, h₂, -⟩ := hf t ht
    rw [h₁, h₂]
    exact h.bits t (hw.subset ht)
  · intro t ht fd e hp
    rw [hk t ht]
    exact h.key t (hw.subset ht) fd e (hpc t ht fd e hp)

theorem Traffic.withWait_waitKey_self (hr : w.stWaitRead t = false) :
    (w.withWait t fd e).waitKey t = eventKey fd e := by
  cases e <;> simp [Traffic.withWait, Traffic.waitKey, eventKey, hr]

theorem Traffic.withWait_of_ne {u : ℕ} (w : Traffic) (fd : ℕ) (e : Event) (hu : u ≠ t) :
    (w.withWait t fd e).stWaitRead u = w.stWaitRead u ∧
      (w.withWait t fd e).stWaitWrite u = w.stWaitWrite u ∧
      (w.withWait t fd e).fdWait u = w.fdWait u := by
  cases e <;> simp [Traffic.withWait, hu]

theorem Traffic.Waits.notMem (h : w.Waits pc) (hr : w.stWaitRead t = false)
    (hw : w.stWaitWrite t = false) : t ∉ w.waiting := by
  intro ht
  obtain hb | hb := h.bits t ht
  · exact Bool.false_ne_true (hr.symm.trans hb)
  · exact Bool.false_ne_true (hw.symm.trans hb)

theorem Traffic.Waits.add {waiting : List ℕ} (h : w.Waits pc)
    (hr : w.stWaitRead t = false) (hw : w.stWaitWrite t = false)
    (hi : OrderedTree.insert (w.withWait t fd e).waitKey t w.waiting = some waiting) :
    { w with
      waiting := waiting
      stWaitRead := (w.withWait t fd e).stWaitRead
      stWaitWrite := (w.withWait t fd e).stWaitWrite
      fdWait := (w.withWait t fd e).fdWait }.Waits (update pc t (.register fd e)) := by
  have ht : t ∉ w.waiting := h.notMem hr hw
  have hk : ∀ u ∈ w.waiting, (w.withWait t fd e).waitKey u = w.waitKey u := by
    intro u hu
    obtain ⟨h₁, -, h₂⟩ := w.withWait_of_ne fd e (ne_of_mem_of_not_mem hu ht)
    unfold Traffic.waitKey
    rw [h₁, h₂]
  have hmem : ∀ u ∈ waiting, u = t ∨ u ∈ w.waiting :=
    fun u hu => List.mem_cons.mp ((OrderedTree.insert_perm hi).mem_iff.mp hu)
  refine { sorted := ?_, bits := ?_, key := ?_ }
  · exact (OrderedTree.Sorted.congr h.sorted hk).insert hi
  · intro u hu
    obtain rfl | hu := hmem u hu
    · cases e <;> simp [Traffic.withWait]
    · obtain ⟨h₁, h₂, -⟩ := w.withWait_of_ne fd e (ne_of_mem_of_not_mem hu ht)
      simp only [h₁, h₂]
      exact h.bits u hu
  · intro u hu fd' e' hp
    obtain rfl | hu := hmem u hu
    · simp only [Function.update_self, Pc.register.injEq, reduceCtorEq, or_false] at hp
      obtain ⟨rfl, rfl⟩ := hp
      exact Traffic.withWait_waitKey_self hr
    · rw [Function.update_of_ne (ne_of_mem_of_not_mem hu ht)] at hp
      exact (hk u hu).trans (h.key u hu fd' e' hp)

theorem Traffic.Waits.frame (h : w.Waits pc) (hw : w'.waiting = w.waiting)
    (hr : w'.stWaitRead = w.stWaitRead) (hwr : w'.stWaitWrite = w.stWaitWrite)
    (hf : w'.fdWait = w.fdWait) : w'.Waits pc :=
  h.mono (by rw [hw]) (fun _ _ => by rw [hr, hwr, hf]; exact ⟨rfl, rfl, rfl⟩) (fun _ _ _ _ => id)

theorem IoMove.waits (hm : IoMove w pc l w' pc') (h : w.Waits pc) : w'.Waits pc' := by
  cases hm with
  | keep hpc =>
    refine h.mono (List.Sublist.refl _) (fun _ _ => ⟨rfl, rfl, rfl⟩) ?_
    intro t _ fd e hp
    obtain hpc | hpc := hpc t
    · rwa [hpc] at hp
    · obtain hp | hp := hp <;> rw [hp] at hpc <;> cases hpc
  | add hr hw hi => exact h.add hr hw hi
  | @register _ t fd e hp =>
    refine h.mono (List.Sublist.refl _) (fun _ _ => ⟨rfl, rfl, rfl⟩) ?_
    intro u _ fd' e' hu
    by_cases hut : u = t
    · subst hut
      simp only [Function.update_self, reduceCtorEq, Pc.waitFd.injEq, false_or] at hu
      obtain ⟨rfl, rfl⟩ := hu
      exact .inl hp
    · rwa [Function.update_of_ne hut] at hu
  | close | fire | inject | kevent | none | push | account => exact h.frame rfl rfl rfl rfl
  | @take t ev dir ltRead rest hp hmem hk =>
    refine h.mono List.erase_sublist ?_ (fun _ _ _ _ => id)
    intro u hu
    have hut : u ≠ t := (h.sorted.nodup.mem_erase_iff.mp hu).1
    cases dir <;> simp [hut]

theorem waits_init (m clock : ℕ) (isOpen : ℕ → Bool) :
    (State.init m clock isOpen).traffic.Waits (State.init m clock isOpen).pc := by
  rw [init_eq]
  refine { sorted := List.Pairwise.nil, bits := ?_, key := ?_ }
  all_goals simp [State.traffic, State.empty]

end Lthread
