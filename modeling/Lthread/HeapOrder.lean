import Mathlib.Algebra.BigOperators.Group.Finset.Basic
import Mathlib.Data.Multiset.Range
import Mathlib.Logic.Equiv.Basic

namespace Lthread.HeapOrder

variable {α κ : Type*} {n p c d i j : ℕ}

def IsChild (p c : ℕ) : Prop := c = p * 2 + 1 ∨ c = p * 2 + 2

theorem IsChild.lt (h : IsChild p c) : p < c := by
  obtain rfl | rfl := h <;> omega

theorem IsChild.parent_eq (h : IsChild p c) : (c - 1) / 2 = p := by
  obtain rfl | rfl := h <;> omega

theorem isChild_parent (h : c ≠ 0) : IsChild ((c - 1) / 2) c := by
  unfold IsChild
  omega

inductive Under (p : ℕ) : ℕ → Prop where
  | self : Under p p
  | child {i c : ℕ} : Under p i → IsChild i c → Under p c

theorem Under.le (h : Under p i) : p ≤ i := by
  induction h with
  | self => exact le_rfl
  | child _ hc ih => exact ih.trans hc.lt.le

theorem Under.of_child (hc : IsChild p c) (h : Under c i) : Under p i := by
  induction h with
  | self => exact .child .self hc
  | child _ hd ih => exact .child ih hd

theorem Under.cases_child (h : Under p i) : i = p ∨ ∃ c, IsChild p c ∧ Under c i := by
  induction h with
  | self => exact .inl rfl
  | child _ hd ih =>
    obtain rfl | ⟨c, hc, hu⟩ := ih
    · exact .inr ⟨_, hd, .self⟩
    · exact .inr ⟨c, hc, .child hu hd⟩

theorem under_zero (i : ℕ) : Under 0 i := by
  induction i using Nat.strong_induction_on with
  | _ i ih =>
    by_cases h : i = 0
    · subst h
      exact .self
    · exact .child (ih _ (isChild_parent h).lt) (isChild_parent h)

theorem Under.eq_of_children (hc : IsChild p c) (hd : IsChild p d) (h : Under c i)
    (h' : Under d i) : c = d := by
  have hself : ∀ {a b : ℕ}, IsChild p a → IsChild p b → Under b a → a = b := by
    intro a b ha hb hu
    cases hu with
    | self => rfl
    | child hu hj =>
      have hjp := hj.parent_eq.symm.trans ha.parent_eq
      have := (hjp ▸ hu).le
      have := hb.lt
      omega
  induction h with
  | self => exact hself hc hd h'
  | @child j i hu hj ih =>
    cases h' with
    | self => exact (hself hd hc (.child hu hj)).symm
    | @child k _ hu' hk =>
      have hkj := hk.parent_eq.symm.trans hj.parent_eq
      exact ih (hkj ▸ hu')

section Contents

variable {a a' a'' : ℕ → α} {P Q : ℕ → Prop}

def swap (a : ℕ → α) (i j : ℕ) : ℕ → α := Function.update (Function.update a i (a j)) j (a i)

theorem swap_apply (a : ℕ → α) (i j k : ℕ) : swap a i j k = a (Equiv.swap i j k) := by
  by_cases hj : k = j
  · subst hj
    rw [swap, Function.update_self, Equiv.swap_apply_right]
  · rw [swap, Function.update_of_ne hj]
    by_cases hi : k = i
    · subst hi
      rw [Function.update_self, Equiv.swap_apply_left]
    · rw [Function.update_of_ne hi, Equiv.swap_apply_of_ne_of_ne hi hj]

@[simp] theorem swap_left (a : ℕ → α) (i j : ℕ) : swap a i j i = a j := by simp [swap_apply]

@[simp] theorem swap_right (a : ℕ → α) (i j : ℕ) : swap a i j j = a i := by simp [swap_apply]

theorem swap_of_ne {k : ℕ} (a : ℕ → α) (hi : k ≠ i) (hj : k ≠ j) : swap a i j k = a k := by
  rw [swap_apply, Equiv.swap_apply_of_ne_of_ne hi hj]

def Rearranges (P : ℕ → Prop) (a a' : ℕ → α) : Prop :=
  ∃ σ : Equiv.Perm ℕ, (∀ i, ¬ P i → σ i = i) ∧ ∀ i, a' i = a (σ i)

theorem Rearranges.refl (P : ℕ → Prop) (a : ℕ → α) : Rearranges P a a :=
  ⟨.refl ℕ, fun _ _ => rfl, fun _ => rfl⟩

theorem Rearranges.mono (h : Rearranges P a a') (hPQ : ∀ i, P i → Q i) : Rearranges Q a a' := by
  obtain ⟨σ, hσ, ha⟩ := h
  exact ⟨σ, fun i hi => hσ i fun hp => hi (hPQ i hp), ha⟩

theorem Rearranges.trans (h : Rearranges P a a') (h' : Rearranges P a' a'') :
    Rearranges P a a'' := by
  obtain ⟨σ, hσ, ha⟩ := h
  obtain ⟨τ, hτ, ha'⟩ := h'
  refine ⟨τ.trans σ, ?_, ?_⟩
  · intro i hi
    rw [Equiv.trans_apply, hτ i hi, hσ i hi]
  · intro i
    rw [ha', ha, Equiv.trans_apply]

theorem Rearranges.swap (a : ℕ → α) (hi : P i) (hj : P j) : Rearranges P a (swap a i j) := by
  refine ⟨Equiv.swap i j, ?_, swap_apply a i j⟩
  intro k hk
  exact Equiv.swap_apply_of_ne_of_ne (fun h => hk (h ▸ hi)) (fun h => hk (h ▸ hj))

theorem Rearranges.eq_of_not (h : Rearranges P a a') (hi : ¬ P i) : a' i = a i := by
  obtain ⟨σ, hσ, ha⟩ := h
  rw [ha, hσ i hi]

theorem Rearranges.exists_of (h : Rearranges P a a') (hi : P i) : ∃ j, P j ∧ a' i = a j := by
  obtain ⟨σ, hσ, ha⟩ := h
  refine ⟨σ i, ?_, ha i⟩
  by_contra hP
  have hfix : σ i = i := σ.injective (hσ _ hP)
  exact hP (hfix.symm ▸ hi)

def nodes (a : ℕ → α) (n : ℕ) : Multiset α := (Multiset.range n).map a

theorem mem_nodes {x : α} : x ∈ nodes a n ↔ ∃ i < n, a i = x := by
  simp [nodes]

theorem nodes_succ (a : ℕ → α) (n : ℕ) : nodes a (n + 1) = a n ::ₘ nodes a n := by
  simp [nodes, Multiset.range_succ]

theorem nodes_congr (h : ∀ i < n, a' i = a i) : nodes a' n = nodes a n :=
  Multiset.map_congr rfl fun i hi => h i (Multiset.mem_range.mp hi)

theorem Rearranges.nodes_eq (h : Rearranges P a a') (hP : ∀ i, P i → i < n) :
    nodes a' n = nodes a n := by
  obtain ⟨σ, hσ, ha⟩ := h
  have hlt : ∀ i, i < n → σ i < n := by
    intro i hi
    by_contra hge
    have hfix : σ i = i := σ.injective (hσ _ fun hp => hge (hP _ hp))
    exact hge (hfix.symm ▸ hi)
  have hrange : (Multiset.range n).map σ = Multiset.range n := by
    apply Multiset.eq_of_le_of_card_le
    · rw [Multiset.le_iff_subset ((Multiset.nodup_map_iff_of_injective σ.injective).mpr
        (Multiset.nodup_range n))]
      intro k hk
      obtain ⟨i, hi, rfl⟩ := Multiset.mem_map.mp hk
      exact Multiset.mem_range.mpr (hlt i (Multiset.mem_range.mp hi))
    · simp
  calc nodes a' n = (Multiset.range n).map (a ∘ σ) := by
        simp only [nodes]
        exact Multiset.map_congr rfl fun i _ => ha i
    _ = ((Multiset.range n).map σ).map a := by rw [Multiset.map_map]
    _ = nodes a n := by rw [hrange, nodes]

theorem nodes_update_last (a : ℕ → α) (n : ℕ) (x : α) :
    nodes (Function.update a n x) (n + 1) = x ::ₘ nodes a n := by
  rw [nodes_succ, Function.update_self]
  exact congrArg _ (nodes_congr fun i hi => Function.update_of_ne hi.ne _ _)

theorem nodes_update_first (a : ℕ → α) (n : ℕ) :
    nodes a (n + 1) = a 0 ::ₘ nodes (Function.update a 0 (a n)) n := by
  have hswap := Rearranges.swap (P := fun i => i < n + 1) a (Nat.succ_pos n) (Nat.lt_succ_self n)
  have hrest : nodes (HeapOrder.swap a 0 n) n = nodes (Function.update a 0 (a n)) n :=
    nodes_congr fun i hi => Function.update_of_ne hi.ne _ _
  calc nodes a (n + 1) = nodes (HeapOrder.swap a 0 n) (n + 1) := (hswap.nodes_eq fun _ h => h).symm
    _ = a 0 ::ₘ nodes (Function.update a 0 (a n)) n := by rw [nodes_succ, swap_right, hrest]

end Contents

section Order

variable [LinearOrder κ] {key : α → κ} {a a' : ℕ → α}

def Ordered (key : α → κ) (a : ℕ → α) (n p : ℕ) : Prop :=
  ∀ i c, Under p i → IsChild i c → c < n → key (a i) ≤ key (a c)

def IsHeap (key : α → κ) (a : ℕ → α) (n : ℕ) : Prop :=
  ∀ c, c ≠ 0 → c < n → key (a ((c - 1) / 2)) ≤ key (a c)

theorem isHeap_iff_ordered : IsHeap key a n ↔ Ordered key a n 0 := by
  constructor
  · intro h i c _ hc hn
    have hle := h c (Nat.ne_zero_of_lt hc.lt) hn
    rwa [hc.parent_eq] at hle
  · intro h c h₀ hn
    exact h _ c (under_zero _) (isChild_parent h₀) hn

theorem Ordered.child (h : Ordered key a n p) (hc : IsChild p c) : Ordered key a n c :=
  fun _ _ hu hd hn => h _ _ (hu.of_child hc) hd hn

theorem Ordered.root_le (h : Ordered key a n p) (hu : Under p i) (hi : i < n) :
    key (a p) ≤ key (a i) := by
  induction hu with
  | self => exact le_rfl
  | child hu hc ih => exact (ih (hc.lt.trans hi)).trans (h _ _ hu hc hi)

theorem Ordered.congr (h : Ordered key a n p) (ha : ∀ i, Under p i → i < n → a' i = a i) :
    Ordered key a' n p := by
  intro i c hu hc hn
  rw [ha i hu (hc.lt.trans hn), ha c (.child hu hc) hn]
  exact h i c hu hc hn

theorem ordered_of_children (hroot : ∀ c, IsChild p c → c < n → key (a p) ≤ key (a c))
    (hsub : ∀ c, IsChild p c → Ordered key a n c) : Ordered key a n p := by
  intro i d hu hd hn
  obtain rfl | ⟨c, hc, hu⟩ := hu.cases_child
  · exact hroot d hd hn
  · exact hsub c hc i d hu hd hn

def minChild (key : α → κ) (a : ℕ → α) (n p : ℕ) : ℕ :=
  let min := if p * 2 + 1 < n ∧ key (a (p * 2 + 1)) < key (a p) then p * 2 + 1 else p
  if p * 2 + 2 < n ∧ key (a (p * 2 + 2)) < key (a min) then p * 2 + 2 else min

theorem minChild_le (key : α → κ) (a : ℕ → α) (n p : ℕ) :
    key (a (minChild key a n p)) ≤ key (a p) ∧
    ∀ c, IsChild p c → c < n → key (a (minChild key a n p)) ≤ key (a c) := by
  simp only [minChild]
  constructor
  · grind
  · rintro c (rfl | rfl) hc <;> grind

theorem minChild_cases (key : α → κ) (a : ℕ → α) (n p : ℕ) :
    minChild key a n p = p ∨ (IsChild p (minChild key a n p) ∧ minChild key a n p < n ∧
      key (a (minChild key a n p)) < key (a p)) := by
  simp only [minChild, IsChild]
  grind

theorem minChild_eq_self (h : ∀ c, IsChild p c → c < n → key (a p) ≤ key (a c)) :
    minChild key a n p = p := by
  obtain hp | ⟨hc, hn, hlt⟩ := minChild_cases key a n p
  · exact hp
  · exact absurd (h _ hc hn) hlt.not_ge

/-- The plain sift-down: swap with the smaller child and go on there. -/
def siftDown (key : α → κ) (n : ℕ) (a : ℕ → α) (p : ℕ) : ℕ → α :=
  if h : minChild key a n p = p then a
  else
    have := ((minChild_cases key a n p).resolve_left h).1.lt
    have := ((minChild_cases key a n p).resolve_left h).2.1
    siftDown key n (swap a (minChild key a n p) p) (minChild key a n p)
termination_by n - p

theorem siftDown_stop (h : minChild key a n p = p) : siftDown key n a p = a := by
  rw [siftDown, dif_pos h]

theorem siftDown_step (h : minChild key a n p ≠ p) : siftDown key n a p =
    siftDown key n (swap a (minChild key a n p) p) (minChild key a n p) := by
  rw [siftDown, dif_neg h]

theorem siftDown_rearranges (a : ℕ → α) (p : ℕ) :
    Rearranges (fun i => Under p i ∧ i < n) a (siftDown key n a p) := by
  induction a, p using siftDown.induct key n with
  | case1 a p h =>
    rw [siftDown_stop h]
    exact .refl _ a
  | case2 a p h _ _ ih =>
    obtain ⟨hc, hn, -⟩ := (minChild_cases key a n p).resolve_left h
    have hswap := Rearranges.swap (P := fun i => Under p i ∧ i < n) a ⟨.child .self hc, hn⟩
      ⟨.self, hc.lt.trans hn⟩
    rw [siftDown_step h]
    exact hswap.trans (ih.mono fun i hi => ⟨hi.1.of_child hc, hi.2⟩)

theorem parent_le_of_sifted {a₂ : ℕ → α} (hsub : ∀ c, IsChild p c → Ordered key a n c)
    (hne : minChild key a n p ≠ p)
    (hr : Rearranges (fun i => Under (minChild key a n p) i ∧ i < n)
      (swap a (minChild key a n p) p) a₂) (ho : Ordered key a₂ n (minChild key a n p)) :
    (∀ d, IsChild p d → d < n → key (a₂ p) ≤ key (a₂ d)) ∧
    ∀ d, IsChild p d → Ordered key a₂ n d := by
  obtain ⟨hc, hn, hlt⟩ := (minChild_cases key a n p).resolve_left hne
  have hmin := (minChild_le key a n p).2
  generalize minChild key a n p = c at *
  have hp : a₂ p = a c := by
    rw [hr.eq_of_not fun h => absurd h.1.le hc.lt.not_ge, swap_right]
  have hother : ∀ d i, IsChild p d → d ≠ c → Under d i → a₂ i = a i := by
    intro d i hd hdc hu
    have hic : ¬ Under c i := fun h => hdc (Under.eq_of_children hd hc hu h)
    have hne : i ≠ c := by
      rintro rfl
      exact hic .self
    have hip : i ≠ p := (hd.lt.trans_le hu.le).ne'
    rw [hr.eq_of_not fun h => hic h.1, swap_of_ne a hne hip]
  constructor
  · intro d hd hdn
    rw [hp]
    by_cases hdc : d = c
    · subst hdc
      obtain ⟨j, ⟨hu, hj⟩, hd'⟩ := hr.exists_of ⟨.self, hdn⟩
      rw [hd']
      by_cases hjd : j = d
      · rw [hjd, swap_left]
        exact hlt.le
      · rw [swap_of_ne a hjd (hd.lt.trans_le hu.le).ne']
        exact (hsub d hd).root_le hu hj
    · rw [hother d d hd hdc .self]
      exact hmin d hd hdn
  · intro d hd
    by_cases hdc : d = c
    · exact hdc ▸ ho
    · exact (hsub d hd).congr fun i hu _ => hother d i hd hdc hu

theorem ordered_below_swap (hsub : ∀ c, IsChild p c → Ordered key a n c) (hc : IsChild p c)
    (d : ℕ) (hd : IsChild c d) : Ordered key (swap a c p) n d := by
  apply ((hsub c hc).child hd).congr
  intro i hu _
  have hlt := hd.lt.trans_le hu.le
  exact swap_of_ne a hlt.ne' (hc.lt.trans hlt).ne'

theorem siftDown_ordered (hsub : ∀ c, IsChild p c → Ordered key a n c) :
    Ordered key (siftDown key n a p) n p := by
  induction a, p using siftDown.induct key n with
  | case1 a p h =>
    rw [siftDown_stop h]
    have hle := (minChild_le key a n p).2
    rw [h] at hle
    exact ordered_of_children hle hsub
  | case2 a p h _ _ ih =>
    have hc := ((minChild_cases key a n p).resolve_left h).1
    have ho := ih (ordered_below_swap hsub hc)
    rw [siftDown_step h]
    obtain ⟨hle, hsub'⟩ := parent_le_of_sifted hsub h (siftDown_rearranges _ _) ho
    exact ordered_of_children hle hsub'

structure UpOrdered (key : α → κ) (a : ℕ → α) (n i : ℕ) : Prop where
  le : ∀ c, c ≠ 0 → c < n → c ≠ i → key (a ((c - 1) / 2)) ≤ key (a c)
  skip : ∀ c, c < n → IsChild i c → i ≠ 0 → key (a ((i - 1) / 2)) ≤ key (a c)

theorem UpOrdered.isHeap (h : UpOrdered key a n i)
    (hi : i ≠ 0 → key (a ((i - 1) / 2)) ≤ key (a i)) : IsHeap key a n := by
  intro c hc hn
  by_cases hci : c = i
  · subst hci
    exact hi hc
  · exact h.le c hc hn hci

theorem IsHeap.upOrdered_update (h : IsHeap key a n) (x : α) :
    UpOrdered key (Function.update a n x) (n + 1) n := by
  constructor
  · intro c hc hn hne
    have hp := (isChild_parent hc).lt
    rw [Function.update_of_ne hne, Function.update_of_ne (by omega)]
    exact h c hc (by omega)
  · intro c hn hc
    have := hc.lt
    omega

theorem IsHeap.ordered_update (h : IsHeap key a (n + 1)) (x : α) (hc : IsChild 0 c) :
    Ordered key (Function.update a 0 x) n c := by
  intro i d hu hd hn
  have hi := hc.lt.trans_le hu.le
  rw [Function.update_of_ne hi.ne', Function.update_of_ne (hi.trans hd.lt).ne']
  exact isHeap_iff_ordered.mp h i d (under_zero i) hd (Nat.lt_succ_of_lt hn)

theorem IsHeap.root_le (h : IsHeap key a n) (hi : i < n) : key (a 0) ≤ key (a i) :=
  (isHeap_iff_ordered.mp h).root_le (under_zero i) hi

theorem UpOrdered.swap (h : UpOrdered key a n i) (hi : i ≠ 0) (hn : i < n)
    (hlt : key (a i) < key (a ((i - 1) / 2))) :
    UpOrdered key (swap a ((i - 1) / 2) i) n ((i - 1) / 2) := by
  have hpi : (i - 1) / 2 ≠ i := (isChild_parent hi).lt.ne
  constructor
  · intro c hc hcn hcp
    by_cases hci : c = i
    · subst hci
      rw [swap_left, swap_right]
      exact hlt.le
    · rw [swap_of_ne a hcp hci]
      by_cases hp : (c - 1) / 2 = (i - 1) / 2
      · rw [hp, swap_left]
        exact hlt.le.trans (hp ▸ h.le c hc hcn hci)
      · by_cases hpi' : (c - 1) / 2 = i
        · rw [hpi', swap_right]
          exact h.skip c hcn (hpi' ▸ isChild_parent hc) hi
        · rw [swap_of_ne a hp hpi']
          exact h.le c hc hcn hci
  · intro c hcn hc hp
    have hpp := (isChild_parent hp).lt
    have hup := h.le _ hp ((isChild_parent hi).lt.trans hn) hpi
    rw [swap_of_ne a hpp.ne (by omega)]
    by_cases hci : c = i
    · rw [hci, swap_right]
      exact hup
    · rw [swap_of_ne a hc.lt.ne' hci]
      have hle := h.le c (Nat.ne_zero_of_lt hc.lt) hcn hci
      rw [hc.parent_eq] at hle
      exact hup.trans hle

end Order

section Weight

variable {key : α → ℕ} {a : ℕ → α}

def weight (key : α → ℕ) (a : ℕ → α) (n : ℕ) : ℕ :=
  (List.range n).foldr (fun i w => (n - i) * key (a i) + w) 0

theorem weight_eq_sum (key : α → ℕ) (a : ℕ → α) (n : ℕ) :
    weight key a n = ∑ i ∈ Finset.range n, (n - i) * key (a i) := by
  have hfold : ∀ l : List ℕ, l.foldr (fun i w => (n - i) * key (a i) + w) 0 =
      (l.map fun i => (n - i) * key (a i)).sum := by
    intro l
    induction l with
    | nil => rfl
    | cons i l ih => rw [List.foldr_cons, ih, List.map_cons, List.sum_cons]
  rw [weight, hfold]
  rfl

theorem weight_swap_lt (hp : p < c) (hc : c < n) (hk : key (a c) < key (a p)) :
    weight key (swap a c p) n < weight key a n := by
  have hsplit : ∀ b : ℕ → α, weight key b n = (n - c) * key (b c) + ((n - p) * key (b p) +
      ∑ i ∈ ((Finset.range n).erase c).erase p, (n - i) * key (b i)) := by
    intro b
    have hcn : c ∈ Finset.range n := Finset.mem_range.mpr hc
    have hpn : p ∈ (Finset.range n).erase c :=
      Finset.mem_erase.mpr ⟨hp.ne, Finset.mem_range.mpr (hp.trans hc)⟩
    have h₁ := Finset.add_sum_erase (Finset.range n) (fun i => (n - i) * key (b i)) hcn
    have h₂ := Finset.add_sum_erase _ (fun i => (n - i) * key (b i)) hpn
    rw [weight_eq_sum, ← h₁, ← h₂]
  have hrest : ∑ i ∈ ((Finset.range n).erase c).erase p, (n - i) * key (swap a c p i) =
      ∑ i ∈ ((Finset.range n).erase c).erase p, (n - i) * key (a i) := by
    apply Finset.sum_congr rfl
    intro i hi
    obtain ⟨hip, hi⟩ := Finset.mem_erase.mp hi
    rw [swap_of_ne a (Finset.ne_of_mem_erase hi) hip]
  rw [hsplit, hsplit a, hrest, swap_left, swap_right]
  obtain ⟨e, he⟩ := Nat.exists_eq_add_of_lt hk
  have hn : n - p = n - c + (c - p) := by omega
  have hpos : 0 < (c - p) * (e + 1) := Nat.mul_pos (by omega) (Nat.succ_pos e)
  rw [he, hn, Nat.add_assoc (key (a c))]
  simp only [Nat.add_mul, Nat.mul_add] at hpos ⊢
  omega

end Weight

end Lthread.HeapOrder
