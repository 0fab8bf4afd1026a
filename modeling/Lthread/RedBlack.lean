import Mathlib.Algebra.Group.Nat.Defs
import Mathlib.Data.List.Perm.Basic
import Mathlib.Data.Nat.Log

namespace Lthread.RedBlack

inductive Color where
  | black | red
  deriving DecidableEq, Repr

inductive Side where
  | left | right
  deriving DecidableEq, Repr

def Side.other : Side → Side
  | .left => .right
  | .right => .left

@[simp]
theorem Side.other_other (s : Side) : s.other.other = s := by
  cases s <;> rfl

theorem Side.eq_or_eq_other (s s' : Side) : s' = s ∨ s' = s.other := by
  cases s <;> cases s' <;> simp [other]

inductive ColorTree (α : Type*) where
  | nil
  | node (color : Color) (left : ColorTree α) (x : α) (right : ColorTree α)
  deriving DecidableEq, Repr

namespace ColorTree

variable {α : Type*}

def mk (s : Side) (c : Color) (near : ColorTree α) (x : α) (far : ColorTree α) : ColorTree α :=
  match s with
  | .left => .node c near x far
  | .right => .node c far x near

def toList : ColorTree α → List α
  | .nil => []
  | .node _ l x r => l.toList ++ x :: r.toList

def top : ColorTree α → Option α
  | .nil => none
  | .node _ _ x _ => some x

def isRed : ColorTree α → Bool
  | .node .red _ _ _ => true
  | _ => false

def setColor (c : Color) : ColorTree α → ColorTree α
  | .nil => .nil
  | .node _ l x r => .node c l x r

def depth : ColorTree α → ℕ
  | .nil => 0
  | .node _ l _ r => max l.depth r.depth + 1

theorem mk_other (s : Side) (c : Color) (a : ColorTree α) (x : α) (b : ColorTree α) :
    mk s.other c b x a = mk s c a x b := by
  cases s <;> rfl

@[simp]
theorem top_nil : (nil : ColorTree α).top = none := rfl

@[simp]
theorem top_node (c : Color) (l : ColorTree α) (x : α) (r : ColorTree α) :
    (node c l x r).top = some x := rfl

@[simp]
theorem top_mk (s : Side) (c : Color) (a : ColorTree α) (x : α) (b : ColorTree α) :
    (mk s c a x b).top = some x := by
  cases s <;> rfl

@[simp]
theorem setColor_mk (s : Side) (c c' : Color) (a : ColorTree α) (x : α) (b : ColorTree α) :
    (mk s c a x b).setColor c' = mk s c' a x b := by
  cases s <;> rfl

@[simp]
theorem isRed_mk (s : Side) (c : Color) (a : ColorTree α) (x : α) (b : ColorTree α) :
    (mk s c a x b).isRed = decide (c = .red) := by
  cases s <;> cases c <;> rfl

theorem eq_nil_or_mk (s : Side) (t : ColorTree α) : t = nil ∨ ∃ c a x b, t = mk s c a x b := by
  cases t with
  | nil => exact .inl rfl
  | node c l x r =>
    cases s with
    | left => exact .inr ⟨c, l, x, r, rfl⟩
    | right => exact .inr ⟨c, r, x, l, rfl⟩

@[simp]
theorem toList_setColor (c : Color) (t : ColorTree α) : (t.setColor c).toList = t.toList := by
  cases t <;> rfl

theorem toList_mk_left (c : Color) (a : ColorTree α) (x : α) (b : ColorTree α) :
    (mk .left c a x b).toList = a.toList ++ x :: b.toList := rfl

theorem toList_mk_right (c : Color) (a : ColorTree α) (x : α) (b : ColorTree α) :
    (mk .right c a x b).toList = b.toList ++ x :: a.toList := rfl

theorem mem_toList_mk {s : Side} {c : Color} {a b : ColorTree α} {x z : α} :
    z ∈ (mk s c a x b).toList ↔ z ∈ a.toList ∨ z = x ∨ z ∈ b.toList := by
  cases s with
  | left => simp [toList_mk_left]
  | right =>
    simp only [toList_mk_right, List.mem_append, List.mem_cons]
    tauto

theorem top_mem {t : ColorTree α} {x : α} (h : t.top = some x) : x ∈ t.toList := by
  cases t with
  | nil => cases h
  | node c l y r =>
    cases h
    simp [toList]

theorem toList_rotate (s : Side) (c d : Color) (a : ColorTree α) (x : α) (b : ColorTree α) (y : α)
    (e : ColorTree α) :
    (mk s d (mk s c a x b) y e).toList = (mk s c a x (mk s d b y e)).toList := by
  cases s <;> simp [mk, toList]

theorem toList_mk_congr {s : Side} {c d : Color} {a a' b b' : ColorTree α} {x : α}
    (ha : a'.toList = a.toList) (hb : b'.toList = b.toList) :
    (mk s d a' x b').toList = (mk s c a x b).toList := by
  cases s <;> simp [mk, toList, ha, hb]

end ColorTree

/-- One node on the way up from a hole: the hole is its subtree on side `side`. -/
structure Frame (α : Type*) where
  side : Side
  color : Color
  node : α
  sibling : ColorTree α

namespace Frame

variable {α : Type*}

def plug (f : Frame α) (t : ColorTree α) : ColorTree α := .mk f.side f.color t f.node f.sibling

def nodes (f : Frame α) : List α := f.node :: f.sibling.toList

end Frame

section Fill

variable {α : Type*}

def fill : List (Frame α) → ColorTree α → ColorTree α
  | [], t => t
  | f :: fs, t => fill fs (f.plug t)

def above (fs : List (Frame α)) : Option α := fs.head?.map Frame.node

@[simp]
theorem above_nil : above ([] : List (Frame α)) = none := rfl

@[simp]
theorem above_cons (f : Frame α) (fs : List (Frame α)) : above (f :: fs) = some f.node := rfl

theorem toList_plug_perm (f : Frame α) (t : ColorTree α) :
    (f.plug t).toList.Perm (t.toList ++ f.nodes) := by
  obtain ⟨s, c, x, u⟩ := f
  cases s with
  | left => exact .refl _
  | right =>
    refine (List.perm_append_comm).trans ?_
    simpa [Frame.nodes, Frame.plug, ColorTree.mk] using
      (List.perm_append_comm : ([x] ++ t.toList).Perm (t.toList ++ [x])).append_right u.toList

theorem toList_fill_perm (fs : List (Frame α)) (t : ColorTree α) :
    (fill fs t).toList.Perm (t.toList ++ fs.flatMap Frame.nodes) := by
  induction fs generalizing t with
  | nil => simp [fill]
  | cons f fs ih =>
    refine (ih (f.plug t)).trans ?_
    simpa using (toList_plug_perm f t).append_right (fs.flatMap Frame.nodes)

def before : List (Frame α) → List α
  | [] => []
  | ⟨.left, _, _, _⟩ :: fs => before fs
  | ⟨.right, _, x, u⟩ :: fs => before fs ++ (u.toList ++ [x])

def after : List (Frame α) → List α
  | [] => []
  | ⟨.left, _, x, u⟩ :: fs => x :: u.toList ++ after fs
  | ⟨.right, _, _, _⟩ :: fs => after fs

theorem toList_fill (fs : List (Frame α)) (t : ColorTree α) :
    (fill fs t).toList = before fs ++ t.toList ++ after fs := by
  induction fs generalizing t with
  | nil => simp [fill, before, after]
  | cons f fs ih =>
    obtain ⟨s, c, x, u⟩ := f
    cases s with
    | left => simp [fill, ih, Frame.plug, ColorTree.toList_mk_left, before, after]
    | right => simp [fill, ih, Frame.plug, ColorTree.toList_mk_right, before, after]

theorem toList_fill_congr (fs : List (Frame α)) {t t' : ColorTree α} (h : t'.toList = t.toList) :
    (fill fs t').toList = (fill fs t).toList := by
  rw [toList_fill, toList_fill, h]

theorem fill_append (gs fs : List (Frame α)) (t : ColorTree α) :
    fill (gs ++ fs) t = fill fs (fill gs t) := by
  induction gs generalizing t with
  | nil => rfl
  | cons g gs ih => exact ih (g.plug t)

theorem before_eq_nil {fs : List (Frame α)} (h : ∀ f ∈ fs, f.side = .left) : before fs = [] := by
  induction fs with
  | nil => rfl
  | cons f fs ih =>
    obtain ⟨s, c, x, u⟩ := f
    obtain rfl : s = .left := h _ List.mem_cons_self
    exact ih fun f hf => h f (List.mem_cons_of_mem _ hf)

theorem ColorTree.exists_fill {t : ColorTree α} {x : α} (hx : x ∈ t.toList) :
    ∃ fs c l r, t = fill fs (.node c l x r) := by
  induction t with
  | nil => cases hx
  | node c l y r ihl ihr =>
    simp only [ColorTree.toList, List.mem_append, List.mem_cons] at hx
    obtain hx | rfl | hx := hx
    · obtain ⟨fs, c', l', r', rfl⟩ := ihl hx
      exact ⟨fs ++ [⟨.left, c, y, r⟩], c', l', r', by rw [fill_append]; rfl⟩
    · exact ⟨[], c, l, r, rfl⟩
    · obtain ⟨fs, c', l', r', rfl⟩ := ihr hx
      exact ⟨fs ++ [⟨.right, c, y, l⟩], c', l', r', by rw [fill_append]; rfl⟩

theorem ColorTree.depth_le_length (t : ColorTree α) : t.depth ≤ t.toList.length := by
  induction t with
  | nil => exact Nat.le_refl 0
  | node c l x r ihl ihr =>
    rw [ColorTree.depth, ColorTree.toList, List.length_append, List.length_cons]
    omega

theorem length_add_depth_le (fs : List (Frame α)) (t : ColorTree α) :
    fs.length + t.depth ≤ (fill fs t).depth := by
  induction fs generalizing t with
  | nil => simp [fill]
  | cons f fs ih =>
    have hplug : t.depth + 1 ≤ (f.plug t).depth := by
      obtain ⟨s, c, x, u⟩ := f
      cases s with
      | left => exact Nat.succ_le_succ (le_max_left ..)
      | right => exact Nat.succ_le_succ (le_max_right ..)
    have := ih (f.plug t)
    rw [List.length_cons, fill]
    omega

end Fill

/-- Balanced trees with the colour of their root and the number of black nodes on each way
down. A red node has black children. -/
inductive BalancedTree {α : Type*} : ColorTree α → Color → ℕ → Prop where
  | nil : BalancedTree .nil .black 0
  | red {l r : ColorTree α} {x : α} {n : ℕ} (hl : BalancedTree l .black n)
      (hr : BalancedTree r .black n) : BalancedTree (.node .red l x r) .red n
  | black {l r : ColorTree α} {x : α} {c d : Color} {n : ℕ} (hl : BalancedTree l c n)
      (hr : BalancedTree r d n) : BalancedTree (.node .black l x r) .black (n + 1)

inductive BalancedPath {α : Type*} : List (Frame α) → Color → ℕ → Prop where
  | root {n : ℕ} : BalancedPath [] .black n
  | red {s : Side} {x : α} {u : ColorTree α} {fs : List (Frame α)} {n : ℕ}
      (hu : BalancedTree u .black n) (hfs : BalancedPath fs .red n) :
      BalancedPath (⟨s, .red, x, u⟩ :: fs) .black n
  | black {s : Side} {x : α} {u : ColorTree α} {fs : List (Frame α)} {c d : Color} {n : ℕ}
      (hu : BalancedTree u d n) (hfs : BalancedPath fs .black (n + 1)) :
      BalancedPath (⟨s, .black, x, u⟩ :: fs) c n

section Balance

variable {α : Type*} {s : Side} {c d : Color} {n k : ℕ} {t a b : ColorTree α} {x : α}
  {f : Frame α} {fs : List (Frame α)}

theorem BalancedTree.mk_red (ha : BalancedTree a .black n) (hb : BalancedTree b .black n) :
    BalancedTree (.mk s .red a x b) .red n := by
  cases s with
  | left => exact .red ha hb
  | right => exact .red hb ha

theorem BalancedTree.mk_black (ha : BalancedTree a c n) (hb : BalancedTree b d n) :
    BalancedTree (.mk s .black a x b) .black (n + 1) := by
  cases s with
  | left => exact .black ha hb
  | right => exact .black hb ha

theorem balanced_mk_red :
    BalancedTree (.mk s .red a x b) c n ↔
      c = .red ∧ BalancedTree a .black n ∧ BalancedTree b .black n := by
  constructor
  · intro h
    cases s with
    | left => cases h with | red hl hr => exact ⟨rfl, hl, hr⟩
    | right => cases h with | red hl hr => exact ⟨rfl, hr, hl⟩
  · rintro ⟨rfl, ha, hb⟩
    exact ha.mk_red hb

theorem balanced_mk_black :
    BalancedTree (.mk s .black a x b) c n ↔
      c = .black ∧ ∃ k d e, n = k + 1 ∧ BalancedTree a d k ∧ BalancedTree b e k := by
  constructor
  · intro h
    cases s with
    | left => cases h with | black hl hr => exact ⟨rfl, _, _, _, rfl, hl, hr⟩
    | right => cases h with | black hl hr => exact ⟨rfl, _, _, _, rfl, hr, hl⟩
  · rintro ⟨rfl, k, d, e, rfl, ha, hb⟩
    exact ha.mk_black hb

theorem BalancedTree.open_red (s : Side) (h : BalancedTree t .red n) (hx : t.top = some x) :
    ∃ a b, t = .mk s .red a x b ∧ BalancedTree a .black n ∧ BalancedTree b .black n := by
  cases h with
  | red hl hr =>
    cases hx
    cases s with
    | left => exact ⟨_, _, rfl, hl, hr⟩
    | right => exact ⟨_, _, rfl, hr, hl⟩

theorem BalancedTree.isRed_eq (h : BalancedTree t c n) : t.isRed = decide (c = .red) := by
  cases h <;> rfl

theorem BalancedTree.setColor_black (h : BalancedTree t c n) :
    ∃ k, BalancedTree (t.setColor .black) .black k := by
  cases h with
  | nil => exact ⟨_, .nil⟩
  | red hl hr => exact ⟨_, .black hl hr⟩
  | black hl hr => exact ⟨_, .black hl hr⟩

theorem BalancedTree.black_of_red (h : BalancedTree t .red n) :
    BalancedTree (t.setColor .black) .black (n + 1) := by
  cases h with
  | red hl hr => exact .black hl hr

theorem BalancedTree.setColor_self (h : BalancedTree t .black n) : t.setColor .black = t := by
  cases h <;> rfl

theorem BalancedTree.exists_mk (s : Side) (h : BalancedTree t c (n + 1)) :
    ∃ e a x b, t = .mk s e a x b := by
  obtain rfl | h' := t.eq_nil_or_mk s
  · cases h
  · exact h'

theorem BalancedPath.of_red (h : BalancedPath fs .red n) : BalancedPath fs c n := by
  cases h with
  | black hu hfs => exact .black hu hfs

theorem BalancedPath.fill (h : BalancedPath fs c n) (ht : BalancedTree t c n) :
    ∃ k, BalancedTree (RedBlack.fill fs t) .black k := by
  induction h generalizing t with
  | root => exact ⟨_, ht⟩
  | red hu _ ih => exact ih (ht.mk_red hu)
  | black hu _ ih => exact ih (ht.mk_black hu)

theorem BalancedTree.focus (h : BalancedTree (RedBlack.fill fs t) .black k) :
    ∃ c n, BalancedTree t c n ∧ BalancedPath fs c n := by
  induction fs generalizing t with
  | nil => exact ⟨_, _, h, .root⟩
  | cons f fs ih =>
    obtain ⟨c, n, hp, hfs⟩ := ih h
    obtain ⟨s, e, x, u⟩ := f
    cases e with
    | red =>
      obtain ⟨rfl, ht, hu⟩ := balanced_mk_red.mp hp
      exact ⟨_, _, ht, .red hu hfs⟩
    | black =>
      obtain ⟨rfl, j, d, e, rfl, ht, hu⟩ := balanced_mk_black.mp hp
      exact ⟨d, j, ht, .black hu hfs⟩

theorem BalancedPath.red_inv {u : ColorTree α} (h : BalancedPath (⟨s, .red, x, u⟩ :: fs) c n) :
    BalancedTree u .black n ∧ ∃ s' y v gs e, fs = ⟨s', .black, y, v⟩ :: gs ∧ BalancedTree v e n ∧
      BalancedPath gs .black (n + 1) := by
  cases h with
  | red hu hfs =>
    cases hfs with
    | black hv hgs => exact ⟨hu, _, _, _, _, _, rfl, hv, hgs⟩

theorem BalancedPath.relabel {y : α} {gs : List (Frame α)}
    (h : BalancedPath (gs ++ ⟨s, d, x, t⟩ :: fs) c n) :
    BalancedPath (gs ++ ⟨s, d, y, t⟩ :: fs) c n := by
  induction gs generalizing c n with
  | nil =>
    cases h with
    | red hu hfs => exact .red hu hfs
    | black hu hfs => exact .black hu hfs
  | cons g gs ih =>
    cases h with
    | red hu hfs => exact .red hu (ih hfs)
    | black hu hfs => exact .black hu (ih hfs)

theorem BalancedPath.sibling (h : BalancedPath (f :: fs) c n) : ∃ d, BalancedTree f.sibling d n := by
  cases h with
  | red hu _ => exact ⟨_, hu⟩
  | black hu _ => exact ⟨_, hu⟩

theorem BalancedTree.pow_le (h : BalancedTree t c n) : 2 ^ n ≤ t.toList.length + 1 := by
  induction h with
  | nil => simp [ColorTree.toList]
  | red _ _ ihl _ =>
    simp only [ColorTree.toList, List.length_append, List.length_cons]
    omega
  | black _ _ ihl ihr =>
    simp only [ColorTree.toList, List.length_append, List.length_cons, Nat.pow_succ]
    omega

theorem BalancedTree.depth_le (h : BalancedTree t c n) :
    t.depth ≤ 2 * n + if c = .red then 1 else 0 := by
  induction h with
  | nil => simp [ColorTree.depth]
  | red _ _ ihl ihr =>
    simp only [ColorTree.depth, reduceCtorEq, if_false, if_true] at ihl ihr ⊢
    omega
  | @black _ _ _ c d _ _ _ ihl ihr =>
    simp only [ColorTree.depth, reduceCtorEq, if_false]
    have : (if c = Color.red then 1 else 0) ≤ 1 := by split <;> omega
    have : (if d = Color.red then 1 else 0) ≤ 1 := by split <;> omega
    omega

theorem BalancedTree.depth_le_log (h : BalancedTree t .black n) :
    t.depth ≤ 2 * Nat.log 2 (t.toList.length + 1) := by
  have hlog := Nat.le_log_of_pow_le (by decide) h.pow_le
  have hdepth := h.depth_le
  simp only [reduceCtorEq, if_false] at hdepth
  omega

end Balance

end Lthread.RedBlack
