import Lthread.RbLinks
import Lthread.OrderedTree

namespace Lthread

open Function (update)
open RedBlack

variable {α : Type*} {e₀ : α → RbEntry α} {h : RbTree α} {s : Side} {c d : Color}
  {t u w a b : ColorTree α} {x y z : α} {f : Frame α} {fs gs : List (Frame α)} {n k : ℕ}

inductive Lacks (t : ColorTree α) (fs : List (Frame α)) : Prop where
  | one {n : ℕ} (ht : BalancedTree t .black n) (hfs : BalancedPath fs .black (n + 1))
  | none {n : ℕ} (hred : t.isRed = true) (ht : BalancedTree (t.setColor .black) .black n)
      (hfs : BalancedPath fs .black n)

def Lacks.turns (t : ColorTree α) (fs : List (Frame α)) : ℕ := if t.isRed then 1 else fs.length + 1

inductive RemoveTurn (e₀ : α → RbEntry α) (h : RbTree α) (l : List α) (n : ℕ) :
    Option (Option α × Option α) → Prop where
  | more {t : ColorTree α} {fs : List (Frame α)} (hF : Focus e₀ h t fs) (ht : Lacks t fs)
      (hl : (fill fs t).toList = l) (hn : Lacks.turns t fs ≤ n) :
      RemoveTurn e₀ h l n (some (above fs, t.top))
  | done {t : ColorTree α} (hR : Represents e₀ h t) (hb : ∃ k, BalancedTree t .black k)
      (hl : t.toList = l) :
      RemoveTurn e₀ h l n none

theorem RemoveTurn.mono {l : List α} {next : Option (Option α × Option α)}
    (h₁ : RemoveTurn e₀ h l n next) (hn : n ≤ k) : RemoveTurn e₀ h l k next := by
  cases h₁ with
  | more hF ht hl hm => exact .more hF ht hl (hm.trans hn)
  | done hR hb hl => exact .done hR hb hl

theorem Linked.leftmost {p : Option α} {fuel : ℕ} (hl : Linked h.entry p t) (hx : t.top = some x)
    (hfuel : t.depth ≤ fuel) :
    ∃ gs d y u, t = fill gs (.node d .nil y u) ∧ (∀ g ∈ gs, g.side = .left) ∧
      rbLeftmost h fuel x = .ok y := by
  induction t generalizing p x fuel with
  | nil => cases hx
  | node c l z r ihl _ =>
    cases hx
    obtain ⟨hz, hll, -⟩ := hl
    rw [ColorTree.depth] at hfuel
    obtain ⟨fuel, rfl⟩ : ∃ k, fuel = k + 1 := ⟨fuel - 1, by omega⟩
    cases hla : l.top with
    | none =>
      have hnil : l = .nil := by
        cases l with
        | nil => rfl
        | node => cases hla
      subst hnil
      refine ⟨[], c, z, r, rfl, by simp, ?_⟩
      simp only [rbLeftmost, hz, hla]
    | some a =>
      obtain ⟨gs, d, y, u, rfl, hgs, hrun⟩ := ihl hll hla (by omega : l.depth ≤ fuel)
      refine ⟨gs ++ [⟨.left, c, z, r⟩], d, y, u, ?_, ?_, ?_⟩
      · rw [fill_append]
        rfl
      · intro g hg
        obtain hg | hg := List.mem_append.mp hg
        · exact hgs g hg
        · rw [List.mem_singleton.mp hg]
      · simp only [rbLeftmost, hz, hla, hrun]

variable [DecidableEq α]

theorem Focus.removeColorLast (hF : Focus e₀ h (.mk s c t y (.mk s .black a z b)) fs)
    (ht : BalancedTree t .black n) (ha : BalancedTree a d n) (hb : BalancedTree b .red n)
    (hfs : BalancedPath fs c (n + if c = .red then 1 else 2)) :
    ∃ h' t', rbRemoveColorLast s h y z = .ok h' ∧ Represents e₀ h' t' ∧
      (∃ k, BalancedTree t' .black k) ∧
      t'.toList = (fill fs (.mk s c t y (.mk s .black a z b))).toList := by
  have hzy : z ≠ y := by
    rintro rfl
    have := (nodup_mk.mp (List.nodup_append.mp hF.nodup).1).2.1
    exact this (ColorTree.mem_toList_mk.mpr (.inr (.inl rfl)))
  have hchild : (((h.setColor z c).setColor y .black).entry z).child s.other = b.top := by
    rw [RbTree.setColor_of_ne hzy, RbTree.setColor_self, hF.far.entry, RbEntry.setColor_of,
      RbEntry.child_other_of]
  have hz := (hF.far.setColor c).up
  rw [ColorTree.mk_other] at hz
  have hy := hz.setColor .black
  have hb' := (Focus.blacken hy.far.far).up
  rw [ColorTree.mk_other] at hb'
  have hb' := hb'.up
  rw [ColorTree.mk_other] at hb'
  obtain ⟨h', hrun, hF'⟩ := hb'.rotate
  refine ⟨h', _, ?_, represents_fill.mpr hF', ?_, ?_⟩
  · simp only [rbRemoveColorLast, hF.entry, RbEntry.color_of, hchild, hrun]
  · cases c with
    | red => exact hfs.fill ((ht.mk_black ha).mk_red hb.black_of_red)
    | black => exact hfs.fill ((ht.mk_black ha).mk_black hb.black_of_red)
  · refine toList_fill_congr fs ?_
    rw [ColorTree.toList_rotate]
    exact ColorTree.toList_mk_congr rfl (ColorTree.toList_mk_congr rfl (ColorTree.toList_setColor ..))

theorem Focus.removeColorBlack {d' : Color}
    (hF : Focus e₀ h t (⟨s, c, y, .mk s .black a z b⟩ :: fs)) (ht : BalancedTree t .black n)
    (ha : BalancedTree a d n) (hb : BalancedTree b d' n)
    (hfs : BalancedPath fs c (n + if c = .red then 1 else 2)) :
    ∃ h' next, rbRemoveColorBlack s h y z = .ok (h', next) ∧
      RemoveTurn e₀ h' (fill (⟨s, c, y, .mk s .black a z b⟩ :: fs) t).toList
        (if c = .red then 1 else fs.length + 1) next := by
  have hz := hF.up.far.entry
  have hared : h.isRed a.top = a.isRed := hF.up.far.near.isRed_eq
  have hbred : h.isRed b.top = b.isRed := hF.up.far.far.isRed_eq
  have hkids : (!h.isRed (h.entry z).left && !h.isRed (h.entry z).right) =
      (!a.isRed && !b.isRed) := by
    rw [hz]
    cases s with
    | left => simp [RbEntry.of, hared, hbred]
    | right => simp [RbEntry.of, hared, hbred, Bool.and_comm]
  have hfar : h.isRed ((h.entry z).child s.other) = b.isRed := by
    rw [hz, RbEntry.child_other_of, hbred]
  rw [rbRemoveColorBlack, hkids, hfar]
  by_cases hb' : b.isRed
  · -- the far child is red
    obtain rfl : d' = .red := of_decide_eq_true (hb.isRed_eq ▸ hb')
    obtain ⟨h', t', hrun, hR, hbal, hl⟩ := hF.up.removeColorLast ht ha hb hfs
    refine ⟨h', none, ?_, .done hR hbal hl⟩
    simp only [hb', Bool.not_true, Bool.and_false, Bool.false_eq_true, if_false, hrun, bind,
      Except.bind, pure, Except.pure]
  obtain rfl : d' = .black := by
    cases d' with
    | black => rfl
    | red => exact absurd hb.isRed_eq hb'
  by_cases ha' : a.isRed
  · -- the near child is red: it comes up and the far child becomes red
    obtain rfl : d = .red := of_decide_eq_true (ha.isRed_eq ▸ ha')
    obtain ⟨e, a₁, q, a₂, rfl⟩ : ∃ e a₁ q a₂, a = .mk s e a₁ q a₂ := by
      obtain rfl | hmk := a.eq_nil_or_mk s
      · cases ha'
      · exact hmk
    obtain rfl : e = .red := by simpa using ha'
    obtain ⟨-, ha₁, ha₂⟩ := balanced_mk_red.mp ha
    have hF₁ := (Focus.blacken hF.up.far.near).up.setColor .red
    rw [ColorTree.top_mk, ColorTree.setColor_mk, ← ColorTree.mk_other s .red,
      ← ColorTree.mk_other s .black] at hF₁
    obtain ⟨h₁, hrun₁, hF₁⟩ := hF₁.rotate
    rw [ColorTree.mk_other s .black, ColorTree.mk_other s .red] at hF₁
    have hF₂ := hF₁.up
    rw [ColorTree.mk_other] at hF₂
    obtain ⟨h', t', hrun, hR, hbal, hl⟩ := hF₂.removeColorLast ht ha₁ (ha₂.mk_red hb) hfs
    refine ⟨h', none, ?_, .done hR hbal (hl.trans ?_)⟩
    · have hq : (h₁.entry y).child s.other = some q := by
        rw [hF₂.entry, RbEntry.child_other_of, ColorTree.top_mk]
      have hnear : (h.entry z).child s = some q := by rw [hz, RbEntry.child_of, ColorTree.top_mk]
      simp only [ha', hb', Bool.not_true, Bool.false_and, Bool.false_eq_true, if_false,
        Bool.not_false, if_true, hnear, hrun₁, bind, Except.bind, hq, deref, hrun, pure, Except.pure]
    · refine toList_fill_congr fs ?_
      cases s <;> simp [Frame.plug, ColorTree.mk, ColorTree.toList]
  · -- both are black: the sibling becomes red and the parent lacks a black node, or is red
    obtain rfl : d = .black := by
      cases d with
      | black => rfl
      | red => exact absurd ha.isRed_eq ha'
    have hF' := (hF.up.far.setColor .red).up
    rw [ColorTree.mk_other] at hF'
    have hparent : (h.entry y).parent = above fs := by rw [hF.up.entry, RbEntry.parent_of]
    have hw : BalancedTree (.mk s .red a z b) .red n := ha.mk_red hb
    refine ⟨h.setColor z .red, some (above fs, some y), ?_, ?_⟩
    · simp only [ha', hb', Bool.not_false, Bool.and_self, if_true, hparent]
    · rw [← ColorTree.top_mk s c t y (.mk s .red a z b)]
      refine .more hF' ?_ ?_ ?_
      · cases c with
        | red => exact .none (by simp) (by rw [ColorTree.setColor_mk]; exact ht.mk_black hw) hfs.of_red
        | black => exact .one (ht.mk_black hw) hfs
      · exact toList_fill_congr fs (ColorTree.toList_mk_congr rfl (ColorTree.toList_mk_congr rfl rfl))
      · cases c <;> simp [Lacks.turns]

theorem Focus.removeColorTurn (hF : Focus e₀ h t (⟨s, c, y, w⟩ :: fs)) (ht : BalancedTree t .black n)
    (hp : BalancedPath (⟨s, c, y, w⟩ :: fs) .black (n + 1)) :
    ∃ h' next, rbRemoveColorTurn s h y = .ok (h', next) ∧
      RemoveTurn e₀ h' (fill (⟨s, c, y, w⟩ :: fs) t).toList (fs.length + 1) next := by
  have hfs : (∃ e, BalancedTree w e (n + 1) ∧ (c = .red → e = .black)) ∧
      BalancedPath fs c (n + if c = .red then 1 else 2) := by
    cases hp with
    | red hu hfs => exact ⟨⟨_, hu, fun _ => rfl⟩, hfs⟩
    | black hu hfs => exact ⟨⟨_, hu, fun hc => by cases hc⟩, hfs⟩
  obtain ⟨⟨e, hw, he⟩, hfs⟩ := hfs
  obtain ⟨e', a, z, b, rfl⟩ := hw.exists_mk s
  have htmp : (h.entry y).child s.other = some z := by
    rw [hF.up.entry, RbEntry.child_other_of, ColorTree.top_mk]
  have hcolor : (h.entry z).color = e' := by rw [hF.up.far.entry, RbEntry.color_of]
  cases e' with
  | black =>
    obtain ⟨rfl, j, d, d', hj, ha, hb⟩ := balanced_mk_black.mp hw
    obtain rfl : n = j := Nat.succ_injective hj
    obtain ⟨h', next, hrun, hturn⟩ := hF.removeColorBlack ht ha hb hfs
    refine ⟨h', next, ?_, hturn.mono ?_⟩
    · simp only [rbRemoveColorTurn, htmp, deref, bind, Except.bind, hcolor, reduceCtorEq, if_false,
        hrun]
    · split <;> omega
  | red =>
    -- the red sibling comes up, and a black one takes its place
    obtain ⟨rfl, ha, hb⟩ := balanced_mk_red.mp hw
    obtain rfl : c = .black := by
      cases c with
      | black => rfl
      | red => cases he rfl
    have hF₁ := (hF.up.far.setColor .black).up
    rw [ColorTree.mk_other] at hF₁
    obtain ⟨h₁, hrun₁, hF₂⟩ := (hF₁.setColor .red).rotate
    obtain ⟨e, a₁, q, a₂, rfl⟩ := ha.exists_mk s
    obtain rfl : e = .black := by
      cases e with
      | black => rfl
      | red => cases (balanced_mk_red.mp ha).1
    obtain ⟨-, j, d, d', hj, ha₁, ha₂⟩ := balanced_mk_black.mp ha
    obtain rfl : n = j := Nat.succ_injective hj
    obtain ⟨h', next, hrun, hturn⟩ :=
      hF₂.near.near.removeColorBlack ht ha₁ ha₂ (.black hb hfs)
    refine ⟨h', next, ?_, ?_⟩
    · have hq : (h₁.entry y).child s.other = some q := by
        rw [hF₂.near.entry, RbEntry.child_other_of, ColorTree.top_mk]
      simp only [rbRemoveColorTurn, htmp, deref, bind, Except.bind, hcolor, if_true, rbSetBlackred,
        hrun₁, hq, hrun]
    · have hlist : (fill (⟨s, .red, y, .mk s .black a₁ q a₂⟩ :: ⟨s, .black, z, b⟩ :: fs) t).toList =
          (fill (⟨s, .black, y, .mk s .red (.mk s .black a₁ q a₂) z b⟩ :: fs) t).toList := by
        refine toList_fill_congr fs ?_
        cases s <;> simp [Frame.plug, ColorTree.mk, ColorTree.toList]
      rw [← hlist]
      exact hturn.mono (by simp)

theorem Focus.removeColor {fuel : ℕ} (hF : Focus e₀ h t fs) (hl : Lacks t fs)
    (hfuel : Lacks.turns t fs ≤ fuel) :
    ∃ h' t', rbRemoveColor fuel h (above fs) t.top = .ok h' ∧ Represents e₀ h' t' ∧
      (∃ k, BalancedTree t' .black k) ∧ t'.toList = (fill fs t).toList := by
  induction fuel generalizing h t fs with
  | zero =>
    simp only [Lacks.turns] at hfuel
    split at hfuel <;> omega
  | succ fuel ih =>
    have hred := hF.isRed_eq
    cases hl with
    | none hr ht hfs =>
      refine ⟨_, _, ?_, represents_fill.mpr (Focus.blacken hF), hfs.fill ht,
        toList_fill_congr fs (ColorTree.toList_setColor ..)⟩
      simp [rbRemoveColor, hred, hr, pure, Except.pure]
    | one ht hfs =>
      have hr : t.isRed = false := by rw [ht.isRed_eq]; rfl
      cases fs with
      | nil =>
        refine ⟨_, _, ?_, Focus.blacken hF, ht.setColor_black, ColorTree.toList_setColor ..⟩
        have hroot : h.root = t.top := hF.path
        simp [rbRemoveColor, hroot, pure, Except.pure]
      | cons f fs =>
        obtain ⟨s, c, y, w⟩ := f
        obtain ⟨h₁, next, hrun, hturn⟩ := hF.removeColorTurn ht hfs
        have hwne : w.top ≠ t.top := by
          obtain ⟨d, hw⟩ := hfs.sibling
          obtain ⟨e, a, z, b, rfl⟩ := hw.exists_mk s
          rw [ColorTree.top_mk]
          exact fun htop => hF.up.top_ne htop.symm (ColorTree.top_mk ..)
        have hside := hF.up.side_eq hwne
        simp only [Lacks.turns, hr, Bool.false_eq_true, if_false, List.length_cons] at hfuel
        rw [above_cons]
        cases hturn with
        | more hF₁ hl₁ hlist hn =>
          obtain ⟨h', t', hrun', hR, hb, hlist'⟩ := ih hF₁ hl₁ (by omega)
          refine ⟨h', t', ?_, hR, hb, hlist'.trans hlist⟩
          simp [rbRemoveColor, hred, hr, hF.top_ne_root, deref, bind, Except.bind, hside, hrun, hrun']
        | done hR hb hlist =>
          refine ⟨_, _, ?_, Focus.blackenRoot hR hb, hb, hlist⟩
          simp [rbRemoveColor, hred, hr, hF.top_ne_root, deref, bind, Except.bind, hside, hrun, pure,
            Except.pure]

theorem Focus.removeRepair {fuel : ℕ} (hF : Focus e₀ h u fs)
    (ht : BalancedTree (.mk s c .nil y u) d n) (hfs : BalancedPath fs d n) (hfuel : fs.length < fuel) :
    ∃ h' t', (if c = .black then rbRemoveColor fuel h (above fs) u.top else .ok h) = .ok h' ∧
      Represents e₀ h' t' ∧ (∃ k, BalancedTree t' .black k) ∧ t'.toList = (fill fs u).toList := by
  cases c with
  | red =>
    obtain ⟨rfl, hnil, hu⟩ := balanced_mk_red.mp ht
    exact ⟨h, _, rfl, represents_fill.mpr hF, hfs.of_red.fill hu, rfl⟩
  | black =>
    obtain ⟨rfl, j, e, e', rfl, hnil, hu⟩ := balanced_mk_black.mp ht
    have hl : Lacks u fs := by
      cases e' with
      | black => exact .one hu hfs
      | red => exact .none (by rw [hu.isRed_eq]; rfl) hu.black_of_red hfs
    refine hF.removeColor hl ?_
    simp only [Lacks.turns]
    split <;> omega

theorem Focus.unlink (hF : Focus e₀ h (.mk s c .nil x u) fs) :
    Focus (update e₀ x (h.entry x)) (rbUnlink h x u.top) u fs ∧
      (rbUnlink h x u.top).entry x = h.entry x := by
  obtain ⟨hnt, hnf, hdis⟩ := List.nodup_append.mp hF.nodup
  obtain ⟨-, hxu, -, hnu, -⟩ := nodup_mk.mp hnt
  simp only [ColorTree.mem_toList_mk] at hdis
  obtain ⟨hx, -, hu⟩ := linked_mk.mp hF.tree
  have hp := hF.path
  rw [ColorTree.top_mk] at hp
  have hpar : (h.entry x).parent = above fs := by rw [hx, RbEntry.parent_of]
  have hxf : x ∉ fs.flatMap Frame.nodes := fun hz => hdis x (.inr (.inl rfl)) x hz rfl
  have hux : u.top ≠ some x := fun htop => hxu (ColorTree.top_mem htop)
  have habove : ∀ z, z ∈ u.toList ∨ z = x → above fs ≠ some z := by
    intro z hz hab
    obtain hz | rfl := hz
    · exact hdis z (.inr (.inr hz)) z (above_mem hab) rfl
    · exact hxf (above_mem hab)
  have hsame : ∀ z, above fs ≠ some z → u.top ≠ some z → (rbUnlink h x u.top).entry z = h.entry z := by
    intro z hab htop
    rw [rbUnlink, hpar, RbTree.replaceChild_of_ne hab, RbTree.setParentOf_of_ne htop]
  have hself := hsame x (habove x (.inr rfl)) hux
  refine ⟨⟨?_, ?_, ?_, ?_⟩, hself⟩
  · refine hu.reparent hnu ?_ ?_
    · intro z htop
      have hz := ColorTree.top_mem htop
      rw [rbUnlink, hpar, RbTree.replaceChild_of_ne (habove z (.inl hz)), htop]
      exact RbTree.setParent_self
    · exact fun z hz htop => hsame z (habove z (.inl hz)) htop
  · rw [rbUnlink, hpar]
    have hp₁ : LinkedPath (h.setParentOf u.top (above fs)) fs (some x) := by
      refine hp.congr RbTree.setParentOf_root fun z hz => RbTree.setParentOf_of_ne ?_
      exact fun htop => hdis z (.inr (.inr (ColorTree.top_mem htop))) z hz rfl
    exact hp₁.replaceChild (List.nodup_cons.mpr ⟨hxf, hnf⟩)
  · refine List.nodup_append.mpr ⟨hnu, hnf, fun z hz z' hz' => hdis z (.inr (.inr hz)) z' hz'⟩
  · intro z hz
    simp only [List.mem_append, not_or] at hz
    by_cases hzx : z = x
    · subst hzx
      rw [hself, Function.update_self]
    · rw [Function.update_of_ne hzx, hsame z (fun hab => hz.2 (above_mem hab))
        (fun htop => hz.1 (ColorTree.top_mem htop))]
      refine hF.frame z ?_
      simp [ColorTree.mem_toList_mk, ColorTree.toList, hzx, hz]

theorem Focus.substitute {l r : ColorTree α} (hF : Focus e₀ h (.node c l x r) fs) (hl : l ≠ .nil)
    (hy : y ∉ (ColorTree.node c l x r).toList ++ fs.flatMap Frame.nodes) :
    ∃ h', rbSubstitute h x y = .ok h' ∧
      Focus (update e₀ x (h.entry x)) h' (.node c l y r) fs := by
  obtain ⟨ht, hp, hn, hfr⟩ := hF
  obtain ⟨hx, hlt, hrt⟩ := ht
  obtain ⟨hnt, hnf, hdis⟩ := List.nodup_append.mp hn
  obtain ⟨hxl, hxr, hnl, hnr, hlr⟩ := (nodup_mk (s := .left)).mp hnt
  simp only [ColorTree.toList, List.mem_append, List.mem_cons, not_or] at hy hdis
  obtain ⟨⟨hyl, hyx, hyr⟩, hyf⟩ := hy
  obtain ⟨a, hla⟩ : ∃ a, l.top = some a := by
    cases l with
    | nil => exact absurd rfl hl
    | node _ _ a _ => exact ⟨a, rfl⟩
  have hal := ColorTree.top_mem hla
  have hab : ∀ z, z ∈ l.toList ∨ z = x ∨ z ∈ r.toList → above fs ≠ some z :=
    fun z hz hab => hdis z hz z (above_mem hab) rfl
  have haby : above fs ≠ some y := fun h => hyf (above_mem h)
  have hrx : r.top ≠ some x := fun htop => hxr (ColorTree.top_mem htop)
  have hry : r.top ≠ some y := fun htop => hyr (ColorTree.top_mem htop)
  have hax : x ≠ a := fun he => hxl (he ▸ hal)
  let h₁ : RbTree α := { h with entry := update h.entry y (h.entry x) }
  let h₂ := h₁.replaceChild (above fs) x (some y)
  let h₃ := h₂.setParent a (some y)
  let h₄ := h₃.setParentOf r.top (some y)
  have h₁_ne : ∀ z, z ≠ y → h₁.entry z = h.entry z := fun z hz => Function.update_of_ne hz _ _
  have h₂_in : ∀ z, z ≠ y → above fs ≠ some z → h₂.entry z = h.entry z := by
    intro z hz hz'
    rw [RbTree.replaceChild_of_ne hz', h₁_ne z hz]
  have h₄_ne : ∀ z, z ≠ a → r.top ≠ some z → h₄.entry z = h₂.entry z := by
    intro z hz hz'
    rw [RbTree.setParentOf_of_ne hz', RbTree.setParent_of_ne hz]
  have hx₂ : h₂.entry x = h.entry x := h₂_in x (Ne.symm hyx) (hab x (.inr (.inl rfl)))
  have hrun : rbSubstitute h x y = .ok h₄ := by
    have hx₁ : (h₁.entry x).parent = above fs := by rw [h₁_ne x (Ne.symm hyx), hx]
    have hl₂ : (h₂.entry x).left = some a := by rw [hx₂, hx, hla]
    have hr₃ : (h₃.entry x).right = r.top := by rw [RbTree.setParent_of_ne hax, hx₂, hx]
    show (deref (((h₁.replaceChild (h₁.entry x).parent x (some y)).entry x).left)).bind _ = _
    rw [hx₁]
    show (deref (h₂.entry x).left).bind _ = _
    rw [hl₂]
    show Except.ok (h₃.setParentOf (h₃.entry x).right (some y)) = _
    rw [hr₃]
  refine ⟨h₄, hrun, ⟨?_, ?_, ?_⟩, ?_, ?_, ?_⟩
  · have hya : y ≠ a := fun he => hyl (he ▸ hal)
    rw [h₄_ne y hya hry, RbTree.replaceChild_of_ne haby, ← hx]
    exact Function.update_self ..
  · refine hlt.reparent hnl ?_ ?_
    · intro z htop
      cases hla.symm.trans htop
      have hra : r.top ≠ some a := fun hra => hlr a hal (ColorTree.top_mem hra)
      rw [RbTree.setParentOf_of_ne hra, RbTree.setParent_self,
        h₂_in a (fun he => hyl (he ▸ hal)) (hab a (.inl hal))]
    · intro z hz htop
      have hza : z ≠ a := fun he => htop (he ▸ hla)
      rw [h₄_ne z hza (fun hra => hlr z hz (ColorTree.top_mem hra)),
        h₂_in z (fun he => hyl (he ▸ hz)) (hab z (.inl hz))]
  · have hra : ∀ z ∈ r.toList, z ≠ a := fun z hz he => hlr a hal (he ▸ hz)
    refine hrt.reparent hnr ?_ ?_
    · intro z htop
      have hz := ColorTree.top_mem htop
      rw [show h₄ = h₃.setParent z (some y) by simp [h₄, htop, RbTree.setParentOf],
        RbTree.setParent_self, RbTree.setParent_of_ne (hra z hz),
        h₂_in z (fun he => hyr (he ▸ hz)) (hab z (.inr (.inr hz)))]
    · intro z hz htop
      rw [h₄_ne z (hra z hz) htop, h₂_in z (fun he => hyr (he ▸ hz)) (hab z (.inr (.inr hz)))]
  · have hp₁ : LinkedPath h₁ fs (some x) := hp.congr rfl fun z hz => h₁_ne z fun he => hyf (he ▸ hz)
    have hxf : x ∉ fs.flatMap Frame.nodes := fun hz => hdis x (.inr (.inl rfl)) x hz rfl
    have hp₂ : LinkedPath h₂ fs (some y) := hp₁.replaceChild (List.nodup_cons.mpr ⟨hxf, hnf⟩)
    refine hp₂.congr RbTree.setParentOf_root fun z hz => h₄_ne z ?_ ?_
    · rintro rfl
      exact hdis z (.inl hal) z hz rfl
    · exact fun htop => hdis z (.inr (.inr (ColorTree.top_mem htop))) z hz rfl
  · refine List.nodup_append.mpr ⟨(nodup_mk (s := .left)).mpr ⟨hyl, hyr, hnl, hnr, hlr⟩, hnf, ?_⟩
    intro z hz z' hz' he
    simp only [ColorTree.toList, List.mem_append, List.mem_cons] at hz
    obtain hz | rfl | hz := hz
    · exact hdis z (.inl hz) z' hz' he
    · exact hyf (he ▸ hz')
    · exact hdis z (.inr (.inr hz)) z' hz' he
  · intro z hz
    simp only [ColorTree.toList, List.mem_append, List.mem_cons, not_or] at hz
    obtain ⟨⟨hzl, hzy, hzr⟩, hzf⟩ := hz
    have hza : z ≠ a := fun he => hzl (he ▸ hal)
    rw [h₄_ne z hza (fun htop => hzr (ColorTree.top_mem htop)),
      h₂_in z hzy fun hz => hzf (above_mem hz)]
    by_cases hzx : z = x
    · rw [hzx, Function.update_self]
    · rw [Function.update_of_ne hzx]
      refine hfr z ?_
      simp [ColorTree.toList, hzl, hzx, hzr, hzf]

theorem toList_fill_erase {l r : ColorTree α} (hn : (fill fs (.node c l x r)).toList.Nodup) :
    (fill fs (.node c l x r)).toList.erase x = before fs ++ (l.toList ++ r.toList) ++ after fs := by
  have hlist : (fill fs (.node c l x r)).toList =
      (before fs ++ l.toList) ++ x :: (r.toList ++ after fs) := by
    rw [toList_fill, ColorTree.toList]
    simp
  rw [hlist] at hn ⊢
  have hx : x ∉ before fs ++ l.toList :=
    fun hx => (List.nodup_append.mp hn).2.2 x hx x List.mem_cons_self rfl
  rw [List.erase_append_right _ hx, List.erase_cons_head]
  simp

theorem Focus.unlinkNext {l : ColorTree α}
    (hF : Focus e₀ h (.node d .nil y u) (gs ++ ⟨.right, c, x, l⟩ :: fs)) (hl : l ≠ .nil) :
    ∃ h' e, rbUnlinkNext h x y = .ok (h', above (gs ++ ⟨.right, c, y, l⟩ :: fs)) ∧
      Focus (update e₀ x e) h' u (gs ++ ⟨.right, c, y, l⟩ :: fs) := by
  have hentry : h.entry y = ⟨none, u.top, above (gs ++ ⟨.right, c, x, l⟩ :: fs), d⟩ := hF.tree.1
  obtain ⟨hF₁, hy₁⟩ := Focus.unlink (s := .left) hF
  have hy : y ∉ u.toList ++ (gs ++ ⟨.right, c, x, l⟩ :: fs).flatMap Frame.nodes :=
    (List.nodup_cons.mp hF.nodup).1
  have hx : x ∈ (gs ++ ⟨.right, c, x, l⟩ :: fs).flatMap Frame.nodes := by simp [Frame.nodes]
  have hyx : y ≠ x := fun he => hy (List.mem_append_right _ (he ▸ hx))
  have hF₂ := (focus_append.mp hF₁).up
  have hy₂ : y ∉ (ColorTree.node c l x (fill gs u)).toList ++ fs.flatMap Frame.nodes := by
    intro hz
    have hz' := (toList_fill_perm fs _).mem_iff.mpr hz
    have heq : fill fs (.node c l x (fill gs u)) = fill (gs ++ ⟨.right, c, x, l⟩ :: fs) u := by
      rw [fill_append]
      rfl
    rw [heq] at hz'
    exact hy ((toList_fill_perm _ u).mem_iff.mp hz')
  obtain ⟨h', hrun, hF₃⟩ := hF₂.substitute hl hy₂
  have hF₄ := focus_append.mpr (Focus.near (s := .right) hF₃)
  refine ⟨h', (rbUnlink h y u.top).entry x, ?_, hF₄.frame_congr ?_⟩
  · have hpar : (if above (gs ++ ⟨.right, c, x, l⟩ :: fs) = some x then some y
        else above (gs ++ ⟨.right, c, x, l⟩ :: fs)) = above (gs ++ ⟨.right, c, y, l⟩ :: fs) := by
      cases gs with
      | nil => simp
      | cons g gs =>
        have hne : g.node ≠ x := by
          have hn := (List.nodup_append.mp hF.nodup).2.1
          rw [List.cons_append, List.flatMap_cons] at hn
          rintro rfl
          exact (List.nodup_append.mp hn).2.2 g.node List.mem_cons_self g.node (by simp [Frame.nodes]) rfl
        simp [hne]
    simp only [rbUnlinkNext, hentry] at hrun ⊢
    rw [hy₁, hentry, hrun]
    simp only [hpar]
    rfl
  · intro z hz
    have hzy : z ≠ y := by
      rintro rfl
      exact hz (List.mem_append_right _ (by simp [Frame.nodes]))
    by_cases hzx : z = x
    · rw [hzx, Function.update_self, Function.update_self]
    · rw [Function.update_of_ne hzx, Function.update_of_ne hzx, Function.update_of_ne hzy]

omit [DecidableEq α] in
theorem LinkedPath.augment {q : Option α} {fuel : ℕ} (hp : LinkedPath h fs q)
    (hfuel : fs.length < fuel) : rbAugment h fuel (above fs) = .ok h := by
  induction fs generalizing q fuel with
  | nil =>
    obtain ⟨fuel, rfl⟩ : ∃ n, fuel = n + 1 := ⟨fuel - 1, by omega⟩
    rfl
  | cons f fs ih =>
    rw [List.length_cons] at hfuel
    obtain ⟨fuel, rfl⟩ : ∃ n, fuel = n + 1 := ⟨fuel - 1, by omega⟩
    obtain ⟨hf, -, hfs⟩ := hp
    rw [above_cons, rbAugment, hf, RbEntry.parent_of]
    exact ih hfs (by omega)

/-- `RB_REMOVE` of a node of a balanced tree. The entries of all nodes that are not in the tree
stay as they were. -/
theorem Represents.remove {fuel : ℕ} (hR : Represents e₀ h t) (hb : BalancedTree t .black n)
    (hx : x ∈ t.toList) (hfuel : t.depth ≤ fuel) :
    ∃ h' t' e, rbRemove fuel h x = .ok h' ∧ Represents (update e₀ x e) h' t' ∧
      (∃ k, BalancedTree t' .black k) ∧ t'.toList = t.toList.erase x := by
  have hn : t.toList.Nodup := by simpa using hR.nodup
  obtain ⟨fs, c, l, r, rfl⟩ := ColorTree.exists_fill hx
  have hF := represents_fill.mp hR
  obtain ⟨d, j, ht, hfs⟩ := hb.focus
  have hentry : h.entry x = ⟨l.top, r.top, above fs, c⟩ := hF.tree.1
  have hdepth := length_add_depth_le fs (.node c l x r)
  rw [ColorTree.depth] at hdepth
  rw [toList_fill_erase hn]
  -- a node with at most one child
  have hone : ∀ {s : Side} {u : ColorTree α}, ColorTree.node c l x r = .mk s c .nil x u →
      rbRemove fuel h x = (if c = .black then
        rbRemoveColor fuel (rbUnlink h x u.top) (above fs) u.top
        else .ok (rbUnlink h x u.top)) → u.toList = l.toList ++ r.toList →
      ∃ h' t' e, rbRemove fuel h x = .ok h' ∧ Represents (update e₀ x e) h' t' ∧
        (∃ k, BalancedTree t' .black k) ∧
        t'.toList = before fs ++ (l.toList ++ r.toList) ++ after fs := by
    intro s u hmk hrun hu
    obtain ⟨h', t', hrun', hR', hb', hl'⟩ := (hmk ▸ hF).unlink.1.removeRepair (hmk ▸ ht) hfs
      (by omega : fs.length < fuel)
    exact ⟨h', t', _, hrun.trans hrun', hR', hb', by rw [hl', toList_fill, hu]⟩
  cases hl : l.top with
  | none =>
    obtain rfl : l = .nil := by
      cases l with
      | nil => rfl
      | node => cases hl
    refine hone (s := .left) rfl ?_ rfl
    simp only [rbRemove, hentry, ColorTree.top_nil, bind, Except.bind, pure, Except.pure]
  | some a =>
    cases hr : r.top with
    | none =>
      obtain rfl : r = .nil := by
        cases r with
        | nil => rfl
        | node => cases hr
      refine hone (s := .right) rfl ?_ (by simp [ColorTree.toList])
      simp only [rbRemove, hentry, hl, ColorTree.top_nil, bind, Except.bind, pure, Except.pure]
    | some b =>
      obtain ⟨gs, d', y, u, rfl, hgs, hrun⟩ := hF.tree.2.2.leftmost hr (by omega : r.depth ≤ fuel)
      have hF' := focus_append.mpr (Focus.far (s := .left) hF)
      have hne : l ≠ .nil := by
        rintro rfl
        cases hl
      obtain ⟨h₁, e, hrun₁, hF₁⟩ := hF'.unlinkNext hne
      have hb' : BalancedTree (fill (gs ++ ⟨.right, c, x, l⟩ :: fs) (.node d' .nil y u)) .black n := by
        rw [fill_append]
        exact hb
      obtain ⟨e', j', ht', hpath⟩ := hb'.focus
      have hlen := length_add_depth_le (gs ++ ⟨.right, c, x, l⟩ :: fs) (.node d' .nil y u)
      rw [fill_append] at hlen
      simp only [List.length_append, List.length_cons, ColorTree.depth] at hlen
      have hfuel' : (gs ++ ⟨.right, c, y, l⟩ :: fs).length < fuel := by
        have := hlen.trans hfuel
        simp only [List.length_append, List.length_cons]
        omega
      obtain ⟨h', t', hrun', hR', hbal, hlist⟩ :=
        hF₁.removeRepair (s := .left) ht' hpath.relabel hfuel'
      refine ⟨h', t', e, ?_, hR', hbal, ?_⟩
      · have hy : h.entry y = ⟨none, u.top, above (gs ++ ⟨.right, c, x, l⟩ :: fs), d'⟩ := hF'.tree.1
        have hwalk := hF₁.path.augment hfuel'
        simp only [rbRemove, hentry, hl, hr, bind, Except.bind, hrun, hy, hrun₁, hwalk, pure,
          Except.pure]
        exact hrun'
      · rw [hlist, fill_append, fill, toList_fill, toList_fill gs]
        simp [Frame.plug, ColorTree.toList_mk_right, toList_fill gs, before_eq_nil hgs,
          ColorTree.toList]

end Lthread
