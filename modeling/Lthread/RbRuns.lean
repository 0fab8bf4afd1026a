import Lthread.RbInsert
import Lthread.RbRemove

namespace Lthread

open Function (update)
open RedBlack

section Search

variable {α κ : Type*} [LinearOrder κ] {key : α → κ} {k : κ} {cmp : α → Int}
  {e₀ : α → RbEntry α} {h : RbTree α} {t : ColorTree α} {p : Option α} {fuel : ℕ}

theorem Linked.find (hl : Linked h.entry p t) (hc : Compares key k cmp)
    (hs : OrderedTree.Sorted key t.toList) (hfuel : t.depth < fuel) :
    rbFind h cmp fuel t.top = .ok (OrderedTree.find key k t.toList) := by
  induction t generalizing p fuel with
  | nil =>
    obtain ⟨fuel, rfl⟩ : ∃ n, fuel = n + 1 := ⟨fuel - 1, by omega⟩
    rfl
  | node c l y r ihl ihr =>
    obtain ⟨fuel, rfl⟩ : ∃ n, fuel = n + 1 := ⟨fuel - 1, by omega⟩
    obtain ⟨hy, hll, hlr⟩ := hl
    rw [ColorTree.depth] at hfuel
    rw [ColorTree.toList] at hs
    obtain ⟨hsl, hsr, hlt⟩ := List.pairwise_append.mp hs
    obtain ⟨hyr, hsr⟩ := List.pairwise_cons.mp hsr
    have hyl : ∀ z ∈ l.toList, key z < key y := fun z hz => hlt z hz y List.mem_cons_self
    simp only [ColorTree.top_node, rbFind, hy, ColorTree.toList, OrderedTree.find,
      List.find?_append, List.find?_cons]
    by_cases hlt : cmp y < 0
    · have hk := (hc y).1.mp hlt
      have hr : r.toList.find? (fun z => decide (key z = k)) = none := by
        simpa using fun z hz => (hk.trans (hyr z hz)).ne'
      rw [if_pos hlt, ihl hll hsl (by omega : l.depth < fuel), OrderedTree.find]
      simp [hk.ne', hr]
    · have hl : ∀ hle : key y ≤ k, l.toList.find? (fun z => decide (key z = k)) = none := by
        intro hle
        simpa using fun z hz => ((hyl z hz).trans_le hle).ne
      rw [if_neg hlt]
      by_cases hgt : 0 < cmp y
      · have hk := (hc y).2.mp hgt
        rw [if_pos hgt, ihr hlr hsr (by omega : r.depth < fuel), OrderedTree.find]
        simp [hl hk.le, hk.ne]
      · have hk := hc.eq_of_not hlt hgt
        rw [if_neg hgt]
        simp [hl hk.le, hk]

theorem Linked.min {parent : Option α} (hl : Linked h.entry p t) (hfuel : t.depth < fuel) :
    rbMinmaxLoop h (-1) fuel t.top parent = .ok (t.toList.head?.or parent) := by
  induction t generalizing p fuel parent with
  | nil =>
    obtain ⟨fuel, rfl⟩ : ∃ n, fuel = n + 1 := ⟨fuel - 1, by omega⟩
    rfl
  | node c l y r ihl _ =>
    obtain ⟨fuel, rfl⟩ : ∃ n, fuel = n + 1 := ⟨fuel - 1, by omega⟩
    obtain ⟨hy, hll, -⟩ := hl
    rw [ColorTree.depth] at hfuel
    have hrun := @ihl _ _ (some y) hll (by omega : l.depth < fuel)
    simp only [ColorTree.top_node, rbMinmaxLoop, hy, RbEntry.child]
    rw [if_pos (by decide)]
    refine hrun.trans ?_
    rw [ColorTree.toList]
    cases l.toList <;> rfl

theorem Represents.find (hR : Represents e₀ h t) (hc : Compares key k cmp)
    (hs : OrderedTree.Sorted key t.toList) (hfuel : t.depth < fuel) :
    rbFind h cmp fuel h.root = .ok (OrderedTree.find key k t.toList) := by
  rw [show h.root = t.top from hR.path]
  exact hR.tree.find hc hs hfuel

theorem Represents.own (hR : Represents e₀ h t) :
    Represents h.entry h t := hR.frame_congr fun z hz => hR.frame z hz

theorem Represents.min (hR : Represents e₀ h t) (hfuel : t.depth < fuel) :
    rbMin fuel h = .ok t.toList.head? := by
  rw [rbMin, show h.root = t.top from hR.path, hR.tree.min hfuel, Option.or_none]

end Search

section Runs

variable {α κ : Type*} [LinearOrder κ]

def keyCmp (key : α → κ) (x y : α) : Int :=
  if key x < key y then -1 else if key x = key y then 0 else 1

theorem compares_keyCmp (key : α → κ) (x : α) : Compares key (key x) (keyCmp key x) := by
  intro y
  unfold keyCmp
  rcases lt_trichotomy (key x) (key y) with h | h | h
  · simp [h, h.not_gt]
  · simp [h]
  · simp [h, h.not_gt, h.ne']

variable [DecidableEq α]

inductive RbOp (α κ : Type*) where
  | insert (x : α) (k : κ)
  | remove (x : α)

def RbOp.node : RbOp α κ → α
  | .insert x _ => x
  | .remove x => x

structure RbState (α κ : Type*) where
  tree : RbTree α
  key : α → κ
  answers : List (Option α)

def rbOp (fuel : ℕ) (s : RbState α κ) : RbOp α κ → Except RbFault (RbState α κ)
  | .insert x k =>
    let key := update s.key x k
    (rbInsert fuel (keyCmp key) s.tree x).map fun (tree, answer) =>
      ⟨tree, key, s.answers ++ [answer]⟩
  | .remove x =>
    (rbRemove fuel s.tree x).map fun tree => ⟨tree, s.key, s.answers ++ [some x]⟩

/-- A call that fails when one of its loops does not end within the given number of turns. -/
structure RbCall (α κ : Type*) where
  op : RbOp α κ
  turns : ℕ

def rbCall (s : RbState α κ) (c : RbCall α κ) : Except RbFault (RbState α κ) := rbOp c.turns s c.op

structure MapState (α κ : Type*) where
  nodes : List α
  key : α → κ
  answers : List (Option α)

/-- A node is inserted when it is not there and removed when it is there. An insertion answers
with the node that has the key already. -/
def mapOp (s : MapState α κ) : RbOp α κ → Option (MapState α κ)
  | .insert x k =>
    if x ∈ s.nodes then none
    else
      let key := update s.key x k
      match OrderedTree.insert key x s.nodes with
      | some nodes => some ⟨nodes, key, s.answers ++ [none]⟩
      | none => some ⟨s.nodes, key, s.answers ++ [OrderedTree.find key k s.nodes]⟩
  | .remove x =>
    if x ∈ s.nodes then some ⟨s.nodes.erase x, s.key, s.answers ++ [some x]⟩ else none

/-- A call has more turns than twice the logarithm of the number of nodes it finds. -/
def mapCall (s : MapState α κ) (c : RbCall α κ) : Option (MapState α κ) :=
  if 2 * Nat.log 2 (s.nodes.length + 1) < c.turns then mapOp s c.op else none

structure Implements (r : RbState α κ) (s : MapState α κ) : Prop where
  key : r.key = s.key
  answers : r.answers = s.answers
  sorted : OrderedTree.Sorted s.key s.nodes
  tree : ∃ t k, Represents r.tree.entry r.tree t ∧ BalancedTree t .black k ∧ t.toList = s.nodes

variable {r : RbState α κ} {s s' : MapState α κ} {op : RbOp α κ} {fuel : ℕ}

/-- One call of `RB_INSERT` or `RB_REMOVE`. It touches the entries of its argument and of the
nodes in the tree. -/
theorem Implements.step (hI : Implements r s) (hop : mapOp s op = some s')
    (hfuel : 2 * Nat.log 2 (s.nodes.length + 1) < fuel) :
    ∃ r', rbOp fuel r op = .ok r' ∧ Implements r' s' ∧ (∀ z ∈ s'.nodes, z ∈ s.nodes ∨ z = op.node) ∧
      ∀ z ∉ s.nodes, z ≠ op.node → r'.tree.entry z = r.tree.entry z := by
  obtain ⟨hkey, hans, hs, t, k, hR, hb, hlist⟩ := hI
  have hdepth : t.depth < fuel := by
    have := hb.depth_le_log
    rw [hlist] at this
    omega
  cases op with
  | insert x k =>
    simp only [mapOp] at hop
    split at hop
    · cases hop
    rename_i hx
    have hs' : OrderedTree.Sorted (update s.key x k) s.nodes :=
      hs.congr fun z hz => Function.update_of_ne (by rintro rfl; exact hx hz) _ _
    have hk : update s.key x k x = k := Function.update_self ..
    obtain ⟨hnone, y, hy, hky, hrun⟩ | ⟨h', t', hrun, hR', ⟨k', hb'⟩, hsome⟩ :=
      hR.insert hb (hlist ▸ hs'.imp (fun hlt => le_of_lt hlt)) (hlist ▸ hx) (compares_keyCmp _ x) hdepth
    · rw [hlist] at hnone hy
      simp only [hnone, Option.some.injEq] at hop
      subst hop
      refine ⟨⟨r.tree, update s.key x k, r.answers ++ [some y]⟩, ?_, ⟨rfl, ?_, hs', t, _, hR, hb, hlist⟩,
        fun z hz => .inl hz, fun _ _ _ => rfl⟩
      · simp only [rbOp, hkey, hrun, Except.map]
      · rw [hk] at hky
        rw [hans, hs'.find_eq_some_iff.mpr ⟨hy, hky⟩]
    · rw [hlist] at hsome
      simp only [hsome, Option.some.injEq] at hop
      subst hop
      have hmem : ∀ z, z ∈ t'.toList ↔ z ∈ x :: s.nodes := fun z =>
        (OrderedTree.insert_perm hsome).mem_iff
      refine ⟨⟨h', update s.key x k, r.answers ++ [none]⟩, ?_,
        ⟨rfl, by rw [hans], hs'.insert hsome, t', k', hR'.own, hb', rfl⟩, ?_, ?_⟩
      · simp only [rbOp, hkey, hrun, Except.map]
      · intro z hz
        exact (List.mem_cons.mp ((hmem z).mp hz)).symm
      · intro z hz hzx
        refine hR'.frame z ?_
        rw [List.flatMap_nil, List.append_nil, hmem]
        exact fun hm => (List.mem_cons.mp hm).elim hzx hz
  | remove x =>
    simp only [mapOp] at hop
    split at hop
    · rename_i hx
      cases hop
      obtain ⟨h', t', e, hrun, hR', ⟨k', hb'⟩, hlist'⟩ := hR.remove hb (hlist ▸ hx) hdepth.le
      rw [hlist] at hlist'
      refine ⟨⟨h', r.key, r.answers ++ [some x]⟩, ?_,
        ⟨hkey, by rw [hans], hs.sublist List.erase_sublist, t', k', hR'.own, hb', hlist'⟩, ?_, ?_⟩
      · simp only [rbOp, hrun, Except.map]
      · exact fun z hz => .inl (List.mem_of_mem_erase hz)
      · intro z hz hzx
        have hfr := hR'.frame z (by
          rw [List.flatMap_nil, List.append_nil, hlist']
          exact fun hm => hz (List.mem_of_mem_erase hm))
        exact hfr.trans (Function.update_of_ne hzx _ _)
    · cases hop

theorem Implements.run {calls : List (RbCall α κ)} (hI : Implements r s)
    (hcalls : calls.foldlM mapCall s = some s') :
    ∃ r', calls.foldlM rbCall r = .ok r' ∧ Implements r' s' ∧
      ∀ z ∉ s.nodes, (∀ c ∈ calls, c.op.node ≠ z) → r'.tree.entry z = r.tree.entry z := by
  induction calls generalizing r s with
  | nil =>
    cases hcalls
    exact ⟨r, rfl, hI, fun _ _ _ => rfl⟩
  | cons c calls ih =>
    rw [List.foldlM_cons] at hcalls
    obtain ⟨s₁, hs₁, hcalls⟩ := Option.bind_eq_some_iff.mp hcalls
    unfold mapCall at hs₁
    split at hs₁
    · rename_i hturns
      obtain ⟨r₁, hrun₁, hI₁, hnodes, hframe₁⟩ := hI.step hs₁ hturns
      obtain ⟨r', hrun, hI', hframe⟩ := ih hI₁ hcalls
      refine ⟨r', ?_, hI', ?_⟩
      · rw [List.foldlM_cons, rbCall, hrun₁]
        exact hrun
      · intro z hz hne
        have hne₁ := (hne c List.mem_cons_self).symm
        rw [hframe z ?_ fun c' h => hne c' (List.mem_cons_of_mem _ h), hframe₁ z hz hne₁]
        exact fun hm => (hnodes z hm).elim hz hne₁
    · cases hs₁

/-- A tree of `tree.h` from `RB_INIT` on, through any sequence of insertions of nodes that are not
in it and removals of nodes that are: no null pointer is followed, all calls return what the
sorted map returns, the pointers stay those of one balanced tree that holds the nodes in the order
of their keys, and `RB_FIND` and `RB_MIN` read it right. In every call, no loop makes more turns
than twice the logarithm of the number of nodes in the tree allows. No other node is touched. -/
theorem rb_tree_implements_map (key : α → κ) (e : α → RbEntry α) (calls : List (RbCall α κ))
    (hcalls : calls.foldlM mapCall ⟨[], key, []⟩ = some s) :
    ∃ r t, calls.foldlM rbCall ⟨⟨none, e⟩, key, []⟩ = .ok r ∧
      r.key = s.key ∧ r.answers = s.answers ∧ OrderedTree.Sorted s.key s.nodes ∧
      Represents r.tree.entry r.tree t ∧ t.toList = s.nodes ∧ (∃ k, BalancedTree t .black k) ∧
      t.depth ≤ 2 * Nat.log 2 (s.nodes.length + 1) ∧
      (∀ turns, 2 * Nat.log 2 (s.nodes.length + 1) < turns →
        (∀ x, rbFind r.tree (keyCmp r.key x) turns r.tree.root =
          .ok (OrderedTree.find s.key (s.key x) s.nodes)) ∧
        rbMin turns r.tree = .ok s.nodes.head?) ∧
      ∀ z, (∀ c ∈ calls, c.op.node ≠ z) → r.tree.entry z = e z := by
  have hinit : Implements (⟨⟨none, e⟩, key, []⟩ : RbState α κ) ⟨[], key, []⟩ := by
    refine ⟨rfl, rfl, List.Pairwise.nil, .nil, 0, ?_, .nil, rfl⟩
    exact ⟨trivial, rfl, List.nodup_nil, fun _ _ => rfl⟩
  obtain ⟨r, hrun, hI, hframe⟩ := hinit.run hcalls
  obtain ⟨hkey, hans, hs, t, k, hR, hb, hlist⟩ := hI
  have hdepth : t.depth ≤ 2 * Nat.log 2 (s.nodes.length + 1) := hlist ▸ hb.depth_le_log
  refine ⟨r, t, hrun, hkey, hans, hs, hR, hlist, ⟨k, hb⟩, hdepth, ?_, ?_⟩
  · intro turns hturns
    refine ⟨fun x => ?_, ?_⟩
    · rw [hkey, hR.find (compares_keyCmp s.key x) (hlist ▸ hs) (by omega), hlist]
    · rw [hR.min (by omega), hlist]
  · exact fun z hz => hframe z List.not_mem_nil hz

/-- Two nodes are inserted, a third has the key of the first, and the first is removed. -/
theorem rb_tree_implements_map_four :
    let calls : List (RbCall ℕ ℕ) :=
      [⟨.insert 1 5, 1⟩, ⟨.insert 2 3, 3⟩, ⟨.insert 3 5, 3⟩, ⟨.remove 1, 3⟩]
    ∃ r t, calls.foldlM rbCall ⟨⟨none, fun _ => ⟨none, none, none, .black⟩⟩, fun _ => 0, []⟩ =
        .ok r ∧
      r.answers = [none, none, some 1, some 1] ∧ Represents r.tree.entry r.tree t ∧
      t.toList = [2] := by
  intro calls
  obtain ⟨r, t, hrun, -, hans, -, hR, hlist, -⟩ := rb_tree_implements_map (fun _ => 0)
    (fun _ => ⟨none, none, none, .black⟩) calls rfl
  exact ⟨r, t, hrun, hans, hR, hlist⟩

end Runs

end Lthread
