import Lthread.RbRuns

namespace Lthread

open Function (update)
open RedBlack

/-- `RB_HEAD` of every tree and `RB_ENTRY` of every node. -/
structure RbForest (R α : Type*) where
  root : R → Option α
  entry : α → RbEntry α

namespace RbTree

variable {α κ : Type*} {h : RbTree α} {l : List α} {fuel : ℕ}

def Holds (h : RbTree α) (l : List α) : Prop :=
  ∃ t k, Represents h.entry h t ∧ BalancedTree t .black k ∧ t.toList = l

theorem holds_nil (e : α → RbEntry α) : (⟨none, e⟩ : RbTree α).Holds [] :=
  ⟨.nil, 0, ⟨trivial, rfl, List.nodup_nil, fun _ _ => rfl⟩, .nil, rfl⟩

theorem Holds.nodup (hl : h.Holds l) : l.Nodup := by
  obtain ⟨t, -, hR, -, rfl⟩ := hl
  simpa using hR.nodup

theorem Holds.root_eq_none (hl : h.Holds l) : h.root = none ↔ l = [] := by
  obtain ⟨t, -, hR, -, rfl⟩ := hl
  rw [show h.root = t.top from hR.path]
  cases t with
  | nil => simp [ColorTree.top, ColorTree.toList]
  | node c a x b => simp [ColorTree.top, ColorTree.toList]

theorem Holds.congr {e : α → RbEntry α} (hl : h.Holds l) (he : ∀ z ∈ l, e z = h.entry z) :
    (⟨h.root, e⟩ : RbTree α).Holds l := by
  obtain ⟨t, k, hR, hb, rfl⟩ := hl
  exact ⟨t, k, ⟨hR.tree.congr he, hR.path, hR.nodup, fun _ _ => rfl⟩, hb, rfl⟩

theorem Holds.min (hl : h.Holds l) (hfuel : l.length < fuel) : rbMin fuel h = .ok l.head? := by
  obtain ⟨t, -, hR, -, rfl⟩ := hl
  exact hR.min (t.depth_le_length.trans_lt hfuel)

variable [LinearOrder κ] {key : α → κ}

theorem Holds.find {k : κ} {cmp : α → Int} (hl : h.Holds l) (hc : Compares key k cmp)
    (hs : OrderedTree.Sorted key l) (hfuel : l.length < fuel) :
    rbFind h cmp fuel h.root = .ok (OrderedTree.find key k l) := by
  obtain ⟨t, -, hR, -, rfl⟩ := hl
  exact hR.find hc hs (t.depth_le_length.trans_lt hfuel)

variable [DecidableEq α] {x : α}

theorem Holds.remove (hl : h.Holds l) (hx : x ∈ l) (hfuel : l.length < fuel) :
    ∃ h', rbRemove fuel h x = .ok h' ∧ h'.Holds (l.erase x) ∧ ∀ z ∉ l, h'.entry z = h.entry z := by
  obtain ⟨t, k, hR, hb, rfl⟩ := hl
  obtain ⟨h', t', e, hrun, hR', ⟨k', hb'⟩, hlist⟩ :=
    hR.remove hb hx (t.depth_le_length.trans hfuel.le)
  refine ⟨h', hrun, ⟨t', k', hR'.own, hb', hlist⟩, ?_⟩
  intro z hz
  have hzx : z ≠ x := fun he => hz (he ▸ hx)
  have hframe := hR'.frame z (by
    rw [List.flatMap_nil, List.append_nil, hlist]
    exact fun hm => hz (List.mem_of_mem_erase hm))
  exact hframe.trans (Function.update_of_ne hzx _ _)

theorem Holds.insert {cmp : α → α → Int} (hl : h.Holds l) (hx : x ∉ l)
    (hs : l.Pairwise fun y z => key y ≤ key z) (hc : Compares key (key x) (cmp x))
    (hfuel : l.length < fuel) :
    (OrderedTree.insert key x l = none ∧ ∃ y, rbInsert fuel cmp h x = .ok (h, some y)) ∨
    ∃ h' l', OrderedTree.insert key x l = some l' ∧ rbInsert fuel cmp h x = .ok (h', none) ∧
      h'.Holds l' ∧ ∀ z ∉ l', h'.entry z = h.entry z := by
  obtain ⟨t, k, hR, hb, rfl⟩ := hl
  obtain ⟨hnone, y, -, -, hrun⟩ | ⟨h', t', hrun, hR', ⟨k', hb'⟩, hsome⟩ :=
    hR.insert hb hs hx hc (t.depth_le_length.trans_lt hfuel)
  · exact .inl ⟨hnone, y, hrun⟩
  · refine .inr ⟨h', t'.toList, hsome, hrun, ⟨t', k', hR'.own, hb', rfl⟩, ?_⟩
    intro z hz
    exact hR'.frame z (by simpa using hz)

end RbTree

namespace RbForest

variable {R α : Type*} {F : RbForest R α} {L : R → List α} {r : R} {l : List α} {h : RbTree α}

def tree (F : RbForest R α) (r : R) : RbTree α := ⟨F.root r, F.entry⟩

structure Holds (F : RbForest R α) (L : R → List α) : Prop where
  tree : ∀ r, (F.tree r).Holds (L r)
  once : ∀ r r' x, x ∈ L r → x ∈ L r' → r = r'

theorem holds_init (e : α → RbEntry α) : (⟨fun _ => none, e⟩ : RbForest R α).Holds fun _ => [] :=
  ⟨fun _ => RbTree.holds_nil e, fun _ _ _ hx => by cases hx⟩

variable [DecidableEq R]

def setTree (F : RbForest R α) (r : R) (h : RbTree α) : RbForest R α :=
  ⟨update F.root r h.root, h.entry⟩

theorem Holds.setTree (hF : F.Holds L) (hl : h.Holds l) (hframe : ∀ z ∉ L r, z ∉ l → h.entry z = F.entry z)
    (honce : ∀ r', r' ≠ r → ∀ x ∈ l, x ∉ L r') : (F.setTree r h).Holds (update L r l) := by
  constructor
  · intro r'
    by_cases hr : r' = r
    · subst hr
      simpa [RbForest.tree, RbForest.setTree] using hl
    · have htree : (F.setTree r h).tree r' = ⟨(F.tree r').root, h.entry⟩ := by
        simp [RbForest.tree, RbForest.setTree, hr]
      rw [htree, Function.update_of_ne hr]
      refine (hF.tree r').congr fun z hz => hframe z ?_ ?_
      · exact fun hz' => hr (hF.once r' r z hz hz')
      · exact fun hz' => honce r' hr z hz' hz
  · intro r₁ r₂ x h₁ h₂
    by_cases hr₁ : r₁ = r
    · by_cases hr₂ : r₂ = r
      · rw [hr₁, hr₂]
      · rw [hr₁, Function.update_self] at h₁
        rw [Function.update_of_ne hr₂] at h₂
        exact absurd h₂ (honce r₂ hr₂ x h₁)
    · rw [Function.update_of_ne hr₁] at h₁
      by_cases hr₂ : r₂ = r
      · rw [hr₂, Function.update_self] at h₂
        exact absurd h₁ (honce r₁ hr₁ x h₂)
      · rw [Function.update_of_ne hr₂] at h₂
        exact hF.once r₁ r₂ x h₁ h₂

variable [DecidableEq α] {x : α} {fuel : ℕ}

theorem Holds.remove (hF : F.Holds L) (hx : x ∈ L r) (hfuel : (L r).length < fuel) :
    ∃ h', rbRemove fuel (F.tree r) x = .ok h' ∧ (F.setTree r h').Holds (update L r ((L r).erase x)) := by
  obtain ⟨h', hrun, hl, hframe⟩ := (hF.tree r).remove hx hfuel
  refine ⟨h', hrun, hF.setTree hl (fun z hz _ => hframe z hz) ?_⟩
  exact fun r' hr y hy hy' => hr (hF.once r' r y hy' (List.mem_of_mem_erase hy))

end RbForest

end Lthread
