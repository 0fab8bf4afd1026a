import Lthread.MinHeap

namespace Lthread

open HeapOrder

variable {b : Block Node} {count p i : ℕ}

theorem lesser_eq {child min : ℕ} (hn : count ≤ b.size) (h : min < child) :
    lesser count b child min = .ok
      (if child < count ∧ (b.cell child).rank < (b.cell min).rank then child else min) := by
  unfold lesser
  by_cases hc : child < count
  · rw [if_pos hc, Block.read_of_lt (hc.trans_le hn), Block.read_of_lt ((h.trans hc).trans_le hn)]
    simp only [bind, Except.bind, Node.rank, BitVec.lt_def, hc, true_and]
  · rw [if_neg hc, if_neg fun h => hc h.1]

theorem lesser_bind_lesser {β : Type} {f : ℕ → Except MemFault β} (hn : count ≤ b.size) :
    ((lesser count b (p * 2 + 1) p).bind fun min =>
      (lesser count b (p * 2 + 2) min).bind f) = f (minChild Node.rank b.cell count p) := by
  rw [lesser_eq hn (by omega)]
  simp only [Except.bind]
  rw [lesser_eq hn (by split <;> omega)]
  rfl

theorem topBottomLoop_succ (fuel : ℕ) (hn : count ≤ b.size) :
    topBottomLoop count (fuel + 1) b p =
      if minChild Node.rank b.cell count p = p then .ok b
      else (topBottomLoop count fuel
          { b with cell := swap b.cell (minChild Node.rank b.cell count p) p }
          (minChild Node.rank b.cell count p)).bind
        fun b => topBottomLoop count fuel b p := by
  simp only [topBottomLoop, bind]
  rw [lesser_bind_lesser hn]
  obtain hp | ⟨hc, hm, -⟩ := minChild_cases Node.rank b.cell count p
  · rw [if_pos hp, if_pos hp]
  · have hms := hm.trans_le hn
    have hps := hc.lt.trans hms
    rw [if_neg hc.lt.ne', if_neg hc.lt.ne']
    simp only [Block.read, Block.write, if_pos hms, if_pos hps, Except.bind]
    rfl

theorem topBottomLoop_stop {fuel : ℕ} (hf : 0 < fuel) (hn : count ≤ b.size)
    (h : minChild Node.rank b.cell count p = p) : topBottomLoop count fuel b p = .ok b := by
  obtain ⟨k, rfl⟩ := Nat.exists_eq_succ_of_ne_zero hf.ne'
  rw [topBottomLoop_succ k hn, if_pos h]

theorem topBottomLoop_terminates (count p : ℕ) (hn : count ≤ b.size) :
    ∃ a', (∀ fuel, weight Node.rank b.cell count < fuel →
      topBottomLoop count fuel b p = .ok { b with cell := a' }) ∧
      Rearranges (fun i => Under p i ∧ i < count) b.cell a' ∧
      weight Node.rank a' count ≤ weight Node.rank b.cell count := by
  induction hw : weight Node.rank b.cell count using Nat.strong_induction_on generalizing b p with
  | _ w ih =>
    subst hw
    obtain hp | ⟨hc, hm, hlt⟩ := minChild_cases Node.rank b.cell count p
    · exact ⟨b.cell, fun fuel hf => topBottomLoop_stop (Nat.zero_lt_of_lt hf) hn hp, .refl _ _,
        le_rfl⟩
    · have hne := hc.lt.ne'
      have hlight := weight_swap_lt hc.lt hm hlt
      obtain ⟨a₂, hrun₂, hr₂, hw₂⟩ := ih _ hlight
        (b := { b with cell := swap b.cell (minChild Node.rank b.cell count p) p })
        (minChild Node.rank b.cell count p) hn rfl
      obtain ⟨a₃, hrun₃, hr₃, hw₃⟩ := ih _ (hw₂.trans_lt hlight) (b := { b with cell := a₂ })
        p hn rfl
      refine ⟨a₃, ?_, ?_, (hw₃.trans hw₂).trans hlight.le⟩
      · intro fuel hf
        obtain ⟨k, rfl⟩ := Nat.exists_eq_succ_of_ne_zero (Nat.ne_zero_of_lt hf)
        have hk := hlight.trans_le (Nat.le_of_lt_succ hf)
        rw [topBottomLoop_succ k hn, if_neg hne, hrun₂ k hk]
        exact hrun₃ k (hw₂.trans_lt hk)
      · have hswap := Rearranges.swap (P := fun i => Under p i ∧ i < count) b.cell
          ⟨.child .self hc, hm⟩ ⟨.self, hc.lt.trans hm⟩
        exact (hswap.trans (hr₂.mono fun i hi => ⟨hi.1.of_child hc, hi.2⟩)).trans hr₃

theorem topBottomLoop_of_ordered {fuel : ℕ} (hn : count ≤ b.size) (hf : count - p < fuel)
    (hsub : ∀ c, IsChild p c → Ordered Node.rank b.cell count c) :
    topBottomLoop count fuel b p = .ok { b with cell := siftDown Node.rank count b.cell p } := by
  induction fuel generalizing b p with
  | zero => exact absurd hf (Nat.not_lt_zero _)
  | succ k ih =>
    rw [topBottomLoop_succ k hn]
    by_cases hp : minChild Node.rank b.cell count p = p
    · rw [if_pos hp, siftDown_stop hp]
    · obtain ⟨hc, hm, -⟩ := (minChild_cases Node.rank b.cell count p).resolve_left hp
      have hbelow := ordered_below_swap hsub hc
      have hlt := hc.lt
      have hrun := ih (b := { b with cell := swap b.cell (minChild Node.rank b.cell count p) p })
        hn (p := minChild Node.rank b.cell count p) (by omega) hbelow
      rw [if_neg hp, hrun, siftDown_step hp]
      obtain ⟨hle, -⟩ := parent_le_of_sifted hsub hp (siftDown_rearranges _ _)
        (siftDown_ordered hbelow)
      apply topBottomLoop_stop (by omega)
      · exact hn
      · exact minChild_eq_self hle

theorem exists_topBottomLoop_eq (count p : ℕ) (hn : count ≤ b.size) :
    ∃ a', (∀ fuel, weight Node.rank b.cell count < fuel →
      topBottomLoop count fuel b p = .ok { b with cell := a' }) ∧
      Rearranges (fun i => Under p i ∧ i < count) b.cell a' ∧
      ((∀ c, IsChild p c → Ordered Node.rank b.cell count c) →
        a' = siftDown Node.rank count b.cell p ∧ Ordered Node.rank a' count p) := by
  obtain ⟨a', hrun, hr, -⟩ := topBottomLoop_terminates count p hn
  refine ⟨a', hrun, hr, ?_⟩
  intro hsub
  have h₁ := hrun (weight Node.rank b.cell count + (count - p) + 1) (by omega)
  rw [topBottomLoop_of_ordered hn (by omega) hsub] at h₁
  have heq : a' = siftDown Node.rank count b.cell p :=
    (congrArg Block.cell (Except.ok.inj h₁)).symm
  exact ⟨heq, heq ▸ siftDown_ordered hsub⟩

/-- `heapify_top_bottom` on every array: it comes to an end, moves the nodes of the subtree about
and nothing else. On an almost-heap it is the sift-down along one path, with no more nested calls
than that path is long, and makes the subtree a heap. -/
theorem heapifyTopBottom_spec (b : Block Node) (count parentNode : ℕ) (hn : count ≤ b.size) :
    ∃ b', heapifyTopBottom count b parentNode = .ok b' ∧
      (∀ fuel, weight Node.rank b.cell count < fuel →
        topBottomLoop count fuel b parentNode = .ok b') ∧
      b'.size = b.size ∧
      Rearranges (fun i => Under parentNode i ∧ i < count) b.cell b'.cell ∧
      (∀ n, count ≤ n → nodes b'.cell n = nodes b.cell n) ∧
      (∀ i, ¬ (Under parentNode i ∧ i < count) → b'.cell i = b.cell i) ∧
      ((∀ c, IsChild parentNode c → Ordered Node.rank b.cell count c) →
        b'.cell = siftDown Node.rank count b.cell parentNode ∧
        (∀ fuel, count - parentNode < fuel → topBottomLoop count fuel b parentNode = .ok b') ∧
        Ordered Node.rank b'.cell count parentNode) := by
  obtain ⟨a', hrun, hr, hsift⟩ := exists_topBottomLoop_eq count parentNode hn
  refine ⟨{ b with cell := a' }, hrun _ (Nat.lt_succ_self _), hrun, rfl, hr, ?_, ?_, ?_⟩
  · intro n hcn
    exact hr.nodes_eq fun i hi => hi.2.trans_le hcn
  · intro i hi
    exact hr.eq_of_not hi
  · intro hsub
    obtain ⟨rfl, ho⟩ := hsift hsub
    exact ⟨rfl, fun fuel hf => topBottomLoop_of_ordered hn hf hsub, ho⟩

/-- Three nodes whose root is the largest: the smaller child comes up. -/
theorem heapifyTopBottom_spec_three :
    ∃ b', heapifyTopBottom 3 ⟨3, fun i => ⟨i, if i = 0 then 9 else if i = 1 then 4 else 2⟩⟩ 0 =
        .ok b' ∧ Ordered Node.rank b'.cell 3 0 ∧ (b'.cell 0).data = 2 := by
  obtain ⟨b', hrun, -, -, -, -, -, hsub⟩ := heapifyTopBottom_spec
    ⟨3, fun i => ⟨i, if i = 0 then 9 else if i = 1 then 4 else 2⟩⟩ 3 0 (by decide)
  have hchildren : ∀ c, IsChild 0 c → Ordered Node.rank
      (fun i => (⟨i, if i = 0 then 9 else if i = 1 then 4 else 2⟩ : Node)) 3 c := by
    intro c hc i d hu hd hn
    have := hc.lt
    have := hu.le
    obtain rfl | rfl := hd <;> omega
  refine ⟨b', hrun, (hsub hchildren).2.2, ?_⟩
  have hb : (heapifyTopBottom 3 ⟨3, fun i => ⟨i, if i = 0 then 9 else if i = 1 then 4 else 2⟩⟩
      0).toOption.map (fun b => (b.cell 0).data) = some 2 := by decide
  rw [hrun] at hb
  exact Option.some.inj hb

end Lthread
