import Lthread.RbLinks
import Lthread.OrderedTree

namespace Lthread

open Function (update)
open RedBlack

section Keys

variable {α κ : Type*} [LinearOrder κ] {key : α → κ} {k : κ} {cmp : α → Int} {c : Color} {y : α}
  {t l r : ColorTree α} {fs : List (Frame α)} {e₀ : α → RbEntry α} {h : RbTree α}

def Compares (key : α → κ) (k : κ) (cmp : α → Int) : Prop :=
  ∀ y, (cmp y < 0 ↔ k < key y) ∧ (0 < cmp y ↔ key y < k)

theorem Compares.eq_of_not (hc : Compares key k cmp) (hlt : ¬ cmp y < 0) (hgt : ¬ 0 < cmp y) :
    key y = k :=
  le_antisymm (not_lt.mp fun h => hlt ((hc y).1.mpr h)) (not_lt.mp fun h => hgt ((hc y).2.mpr h))

structure Around (key : α → κ) (k : κ) (fs : List (Frame α)) : Prop where
  lt : ∀ z ∈ before fs, key z < k
  gt : ∀ z ∈ after fs, k < key z

theorem Around.left (hA : Around key k fs)
    (hs : (fill fs (.node c l y r)).toList.Pairwise fun x y => key x ≤ key y) (hlt : k < key y) :
    Around key k (⟨.left, c, y, r⟩ :: fs) := by
  refine ⟨hA.lt, ?_⟩
  intro z hz
  simp only [after, List.cons_append, List.mem_cons, List.mem_append] at hz
  rw [toList_fill, ColorTree.toList] at hs
  obtain rfl | hz | hz := hz
  · exact hlt
  · have := (List.pairwise_append.mp (List.pairwise_append.mp hs).1).2.1
    exact hlt.trans_le ((List.pairwise_cons.mp (List.pairwise_append.mp this).2.1).1 z hz)
  · exact hA.gt z hz

theorem Around.right (hA : Around key k fs)
    (hs : (fill fs (.node c l y r)).toList.Pairwise fun x y => key x ≤ key y) (hgt : key y < k) :
    Around key k (⟨.right, c, y, l⟩ :: fs) := by
  refine ⟨?_, hA.gt⟩
  intro z hz
  simp only [before, List.mem_append, List.mem_singleton] at hz
  rw [toList_fill, ColorTree.toList] at hs
  obtain hz | hz | rfl := hz
  · exact hA.lt z hz
  · have := (List.pairwise_append.mp (List.pairwise_append.mp hs).1).2.1
    exact ((List.pairwise_append.mp this).2.2 z hz y List.mem_cons_self).trans_lt hgt
  · exact hgt

theorem Focus.descend {fuel : ℕ} (comp : Int) (hF : Focus e₀ h t fs) (hc : Compares key k cmp)
    (hs : (fill fs t).toList.Pairwise fun x y => key x ≤ key y) (hA : Around key k fs)
    (hcomp : ∀ f ∈ fs.head?, f.side = if comp < 0 then .left else .right)
    (hfuel : t.depth < fuel) :
    (∃ y ∈ t.toList, key y = k ∧ rbDescend h cmp fuel t.top (above fs) comp = .ok (.found y)) ∨
    ∃ fs' comp', rbDescend h cmp fuel t.top (above fs) comp = .ok (.below (above fs') comp') ∧
      fill fs' .nil = fill fs t ∧ Around key k fs' ∧ fs'.length ≤ fs.length + t.depth ∧
      ∀ f ∈ fs'.head?, f.side = if comp' < 0 then .left else .right := by
  induction t generalizing fs comp fuel with
  | nil =>
    cases fuel with
    | zero => omega
    | succ fuel => exact .inr ⟨fs, comp, rfl, rfl, hA, by omega, hcomp⟩
  | node c l y r ihl ihr =>
    cases fuel with
    | zero => omega
    | succ fuel =>
      have hentry : h.entry y = ⟨l.top, r.top, above fs, c⟩ := hF.tree.1
      rw [ColorTree.depth] at hfuel
      simp only [ColorTree.top, rbDescend, hentry]
      by_cases hlt : cmp y < 0
      · simp only [if_pos hlt]
        have hside : ∀ f ∈ (⟨.left, c, y, r⟩ :: fs).head?,
            f.side = if cmp y < 0 then .left else .right := by simp [hlt]
        obtain ⟨z, hz, hk, hrun⟩ | ⟨fs', comp', hrun, hfill, hA', hlen, hcomp'⟩ :=
          ihl (cmp y) (focus_cons.mpr hF : Focus e₀ h l (⟨.left, c, y, r⟩ :: fs)) hs
            (hA.left hs ((hc y).1.mp hlt)) hside (by omega : l.depth < fuel)
        · exact .inl ⟨z, by simp [ColorTree.toList, hz], hk, hrun⟩
        · refine .inr ⟨fs', comp', hrun, hfill, hA', ?_, hcomp'⟩
          rw [ColorTree.depth]
          rw [List.length_cons] at hlen
          omega
      · simp only [if_neg hlt]
        by_cases hgt : 0 < cmp y
        · simp only [if_pos hgt]
          have hside : ∀ f ∈ (⟨.right, c, y, l⟩ :: fs).head?,
              f.side = if cmp y < 0 then .left else .right := by simp [hlt]
          obtain ⟨z, hz, hk, hrun⟩ | ⟨fs', comp', hrun, hfill, hA', hlen, hcomp'⟩ :=
            ihr (cmp y) (focus_cons.mpr hF : Focus e₀ h r (⟨.right, c, y, l⟩ :: fs)) hs
              (hA.right hs ((hc y).2.mp hgt)) hside (by omega : r.depth < fuel)
          · exact .inl ⟨z, by simp [ColorTree.toList, hz], hk, hrun⟩
          · refine .inr ⟨fs', comp', hrun, hfill, hA', ?_, hcomp'⟩
            rw [ColorTree.depth]
            rw [List.length_cons] at hlen
            omega
        · simp only [if_neg hgt]
          exact .inl ⟨y, by simp [ColorTree.toList], hc.eq_of_not hlt hgt, rfl⟩

end Keys

variable {α : Type*} [DecidableEq α] {e₀ : α → RbEntry α} {h : RbTree α} {s sf : Side}
  {c d : Color} {t u v : ColorTree α} {x y z : α} {fs gs : List (Frame α)} {n : ℕ}

theorem Focus.insertRotate (hF : Focus e₀ h (.mk s c (.mk s d t y u) z v) gs) :
    ∃ h', rbRotate s.other (rbSetBlackred h y z) z = .ok h' ∧
      Focus e₀ h' t (⟨s, .black, y, .mk s.other .red v z u⟩ :: gs) := by
  have hred := ((hF.near.setColor .black).up).setColor .red
  rw [← ColorTree.mk_other, ← ColorTree.mk_other s .black] at hred
  obtain ⟨h', hrun, hF'⟩ := hred.rotate
  have hup := hF'.far
  rw [Side.other_other] at hup
  exact ⟨h', hrun, hup⟩

theorem Focus.insertColorTurn
    (hF : Focus e₀ h t (⟨sf, .red, y, u⟩ :: ⟨s, .black, z, v⟩ :: gs)) (hx : t.top = some x)
    (ht : BalancedTree t .red n) (hu : BalancedTree u .black n) (hv : BalancedTree v c n)
    (hgs : BalancedPath gs .black (n + 1)) :
    ∃ h' t' x' fs' k, rbInsertColorTurn s h x y z = .ok (h', x') ∧ Focus e₀ h' t' fs' ∧
      t'.top = some x' ∧ BalancedTree t' .red k ∧ BalancedPath fs' .black k ∧
      fs'.length ≤ gs.length + 1 ∧
      (fill fs' t').toList =
        (fill (⟨sf, .red, y, u⟩ :: ⟨s, .black, z, v⟩ :: gs) t).toList := by
  have htmp : (h.entry z).child s.other = v.top := by
    rw [hF.up.up.entry, RbEntry.child_other_of]
  have hvred : h.isRed v.top = v.isRed := hF.up.up.far.isRed_eq
  by_cases hred : v.isRed
  · -- the uncle is red
    have hv' : BalancedTree v .red n := by
      rw [hv.isRed_eq] at hred
      exact of_decide_eq_true hred ▸ hv
    have hF₁ := (Focus.blacken hF.up.up.far).up
    rw [ColorTree.mk_other] at hF₁
    have hF₂ := ((hF₁.near.setColor .black).up).setColor .red
    refine ⟨_, _, z, gs, n + 1, ?_, hF₂, ColorTree.top_mk .., ?_, hgs, by simp, ?_⟩
    · simp only [rbInsertColorTurn, htmp, hvred, hred, if_true]
      rfl
    · exact (ht.mk_black hu).mk_red hv'.black_of_red
    · exact toList_fill_congr gs
        (ColorTree.toList_mk_congr (ColorTree.toList_mk_congr rfl rfl) (ColorTree.toList_setColor ..))
  · have hv' : BalancedTree v .black n := by
      rw [hv.isRed_eq] at hred
      cases c with
      | red => exact absurd rfl hred
      | black => exact hv
    obtain rfl | rfl := Side.eq_or_eq_other s sf
    · -- the node is on the outer side
      have hne : (h.entry y).child sf.other ≠ some x := by
        rw [hF.up.entry, RbEntry.child_other_of]
        exact hF.up.top_ne hx
      obtain ⟨h', hrun, hF'⟩ := Focus.insertRotate hF.up.up
      refine ⟨h', t, x, _, n, ?_, hF', hx, ht, .black (hv'.mk_red hu) hgs, by simp, ?_⟩
      · simp only [rbInsertColorTurn, htmp, hvred, hred, if_neg hne, hrun]
        rfl
      · refine toList_fill_congr gs ?_
        cases sf <;> simp [Frame.plug, ColorTree.mk, ColorTree.toList, Side.other]
    · -- the node is on the inner side and comes up first
      obtain ⟨a, b, rfl, ha, hb⟩ := ht.open_red s hx
      have heq : (h.entry y).child s.other = some x := by
        rw [hF.up.entry, RbEntry.child_of, ColorTree.top_mk]
      have hF₁ := hF.up
      rw [ColorTree.mk_other] at hF₁
      obtain ⟨h₁, hrun₁, hF₁⟩ := hF₁.rotate
      obtain ⟨h', hrun, hF'⟩ := Focus.insertRotate hF₁.up
      refine ⟨h', _, y, _, n, ?_, hF', ColorTree.top_mk .., hu.mk_red ha, .black (hv'.mk_red hb) hgs,
        by simp, ?_⟩
      · simp only [rbInsertColorTurn, htmp, hvred, hred, if_pos heq, hrun₁, bind, Except.bind, hrun]
        rfl
      · refine toList_fill_congr gs ?_
        cases s <;> simp [Frame.plug, ColorTree.mk, ColorTree.toList, Side.other]

theorem Focus.insertColor {fuel : ℕ} (hF : Focus e₀ h t fs) (hx : t.top = some x)
    (ht : BalancedTree t .red n) (hfs : BalancedPath fs .black n) (hfuel : fs.length < fuel) :
    ∃ h' t', rbInsertColor fuel h x = .ok h' ∧ Represents e₀ h' t' ∧
      (∃ k, BalancedTree t' .black k) ∧ t'.toList = (fill fs t).toList := by
  induction fuel generalizing h t x fs n with
  | zero => omega
  | succ fuel ih =>
    have hpar := hF.parent_eq hx
    cases fs with
    | nil =>
      refine ⟨h.blacken t.top, t.setColor .black, ?_, Focus.blacken hF, ht.setColor_black,
        ColorTree.toList_setColor ..⟩
      have hroot : h.root = some x := hF.path.trans hx
      simp only [rbInsertColor, hpar, above_nil, hroot, hx, deref, bind, Except.bind, pure,
        Except.pure]
    | cons f fs =>
      obtain ⟨s, c, y, u⟩ := f
      have hcolor : (h.entry y).color = c := by rw [hF.up.entry, RbEntry.color_of]
      cases c with
      | black =>
        have hb : ∃ k, BalancedTree (fill (⟨s, .black, y, u⟩ :: fs) t) .black k := by
          cases hfs with
          | black hu hfs => exact hfs.fill (ht.mk_black hu)
        refine ⟨_, _, ?_, hF.blackenRoot hb, hb, rfl⟩
        obtain ⟨r, -, hr⟩ := hF.root_mem
        simp only [rbInsertColor, hpar, above_cons, hcolor, reduceCtorEq, if_false, hr, deref, bind,
          Except.bind, pure, Except.pure]
      | red =>
        obtain ⟨hu, s', z, v, gs, e, rfl, hv, hgs⟩ := hfs.red_inv
        have hgpar : (h.entry y).parent = some z := by rw [hF.up.entry, RbEntry.parent_of]; rfl
        have hside := hF.up.up.side_eq (by
          rw [ColorTree.top_mk]
          exact hF.up.up.top_ne (ColorTree.top_mk ..))
        rw [ColorTree.top_mk] at hside
        obtain ⟨h₁, t₁, x₁, fs₁, k, hrun, hF₁, hx₁, ht₁, hfs₁, hlen, hlist⟩ :=
          hF.insertColorTurn hx ht hu hv hgs
        simp only [List.length_cons] at hfuel
        obtain ⟨h', t', hrun', hR, hb, hlist'⟩ := ih hF₁ hx₁ ht₁ hfs₁ (by omega)
        refine ⟨h', t', ?_, hR, hb, hlist'.trans hlist⟩
        simp only [rbInsertColor, hpar, above_cons, hcolor, if_true, hgpar, deref, bind, Except.bind,
          hside, hrun, hrun']

variable {κ : Type*} [LinearOrder κ] {key : α → κ}

theorem Focus.link {comp : Int} (hF : Focus e₀ h .nil fs) (hx : x ∉ fs.flatMap Frame.nodes)
    (hcomp : ∀ f ∈ fs.head?, f.side = if comp < 0 then .left else .right) :
    Focus e₀ (rbLink h x (above fs) comp) (.node .red .nil x .nil) fs := by
  have hset : ∀ z, z ≠ x → (rbSet h x (above fs)).entry z = h.entry z :=
    fun z hz => Function.update_of_ne hz _ _
  have hsetx : (rbSet h x (above fs)).entry x = ⟨none, none, above fs, .red⟩ := Function.update_self ..
  have hp₁ : LinkedPath (rbSet h x (above fs)) fs none :=
    hF.path.congr rfl fun z hz => hset z fun he => hx (he ▸ hz)
  have hn : (x :: fs.flatMap Frame.nodes).Nodup := List.nodup_cons.mpr ⟨hx, hF.nodup⟩
  cases fs with
  | nil =>
    refine ⟨⟨hsetx, trivial, trivial⟩, rfl, hn, ?_⟩
    intro z hz
    simp only [ColorTree.toList, List.nil_append, List.flatMap_nil, List.append_nil,
      List.mem_singleton] at hz
    exact (hset z hz).trans (hF.frame z (by simp [ColorTree.toList]))
  | cons f fs =>
    obtain ⟨hf, hs, hfs⟩ := hp₁
    have hside := hcomp f rfl
    simp only [List.flatMap_cons, Frame.nodes, List.cons_append, List.nodup_cons, List.mem_cons,
      List.mem_append, not_or] at hn
    obtain ⟨⟨hxf, -, -⟩, ⟨hfu, hffs⟩, -⟩ := hn
    have hne : ∀ z, z ≠ f.node → (rbLink h x (above (f :: fs)) comp).entry z =
        (rbSet h x (above (f :: fs))).entry z := fun z hz => RbTree.setChild_of_ne hz
    refine ⟨⟨(hne x hxf).trans hsetx, trivial, trivial⟩, ⟨?_, hs.congr ?_, hfs.congr rfl ?_⟩, ?_, ?_⟩
    · show ((rbSet h x (some f.node)).setChild f.node _ (some x)).entry f.node = _
      rw [RbTree.setChild_self, ← hside]
      rw [above_cons] at hf
      rw [hf, RbEntry.setChild_of]
      rfl
    · exact fun z hz => hne z fun he => hfu (he ▸ hz)
    · exact fun z hz => hne z fun he => hffs (he ▸ hz)
    · exact List.nodup_cons.mpr ⟨hx, hF.nodup⟩
    · intro z hz
      simp only [ColorTree.toList, List.nil_append, List.cons_append, List.mem_cons, not_or] at hz
      obtain ⟨hzx, hz⟩ := hz
      have hzf : z ≠ f.node := by
        rintro rfl
        exact hz (by simp [Frame.nodes])
      rw [hne z hzf, hset z hzx]
      exact hF.frame z hz

/-- `RB_INSERT` on a balanced tree whose keys do not decrease does what the insertion into the
sequence of its nodes does. -/
theorem Represents.insert {cmp : α → α → Int} {fuel : ℕ} (hR : Represents e₀ h t)
    (hb : BalancedTree t .black n) (hs : t.toList.Pairwise fun x y => key x ≤ key y) (hx : x ∉ t.toList)
    (hc : Compares key (key x) (cmp x)) (hfuel : t.depth < fuel) :
    (OrderedTree.insert key x t.toList = none ∧ ∃ y ∈ t.toList, key y = key x ∧
      rbInsert fuel cmp h x = .ok (h, some y)) ∨
    ∃ h' t', rbInsert fuel cmp h x = .ok (h', none) ∧ Represents e₀ h' t' ∧
      (∃ k, BalancedTree t' .black k) ∧ OrderedTree.insert key x t.toList = some t'.toList := by
  have hroot : h.root = t.top := hR.path
  obtain ⟨y, hy, hk, hrun⟩ | ⟨fs, comp, hrun, hfill, hA, hlen, hcomp⟩ :=
    hR.descend 0 hc hs ⟨by simp [before], by simp [after]⟩ (by simp) hfuel
  · refine .inl ⟨OrderedTree.insert_eq_none_of_mem hs hy hk, y, hy, hk, ?_⟩
    rw [above_nil, ← hroot] at hrun
    simp only [rbInsert, hrun, bind, Except.bind, pure, Except.pure]
  · have hfill : fill fs .nil = t := hfill
    have hlist : t.toList = before fs ++ after fs := by
      rw [← hfill, toList_fill]
      simp [ColorTree.toList]
    have hF : Focus e₀ h .nil fs := represents_fill.mp (hfill ▸ hR)
    have hxfs : x ∉ fs.flatMap Frame.nodes := by
      intro hz
      exact hx (hfill ▸ (toList_fill_perm fs .nil).mem_iff.mpr (by simpa [ColorTree.toList] using hz))
    have hbal : BalancedTree (fill fs .nil) .black n := hfill ▸ hb
    obtain ⟨c, j, hnil, hpath⟩ := hbal.focus
    cases hnil
    simp only [List.length_nil] at hlen
    obtain ⟨h', t', hrun', hR', hb', hlist'⟩ :=
      (hF.link hxfs hcomp).insertColor (x := x) rfl (.red .nil .nil) hpath
        (by omega : fs.length < fuel)
    refine .inr ⟨h', t', ?_, hR', hb', ?_⟩
    · rw [above_nil, ← hroot] at hrun
      simp only [rbInsert, hrun, hrun', bind, Except.bind, pure, Except.pure]
    · rw [hlist', hlist, OrderedTree.insert_between hA.lt hA.gt, toList_fill]
      simp [ColorTree.toList]

end Lthread
