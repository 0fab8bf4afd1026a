import Lthread.RbTree

namespace Lthread

open Function (update)
open RedBlack

variable {α : Type*}

namespace RbEntry

def of (s : Side) (near far parent : Option α) (c : Color) : RbEntry α :=
  match s with
  | .left => ⟨near, far, parent, c⟩
  | .right => ⟨far, near, parent, c⟩

variable {s : Side} {a b p q : Option α} {c d : Color}

@[simp]
theorem child_of : (of s a b p c).child s = a := by
  cases s <;> rfl

@[simp]
theorem child_other_of : (of s a b p c).child s.other = b := by
  cases s <;> rfl

@[simp]
theorem parent_of : (of s a b p c).parent = p := by
  cases s <;> rfl

@[simp]
theorem color_of : (of s a b p c).color = c := by
  cases s <;> rfl

@[simp]
theorem setChild_of : (of s a b p c).setChild s q = of s q b p c := by
  cases s <;> rfl

@[simp]
theorem setChild_other_of : (of s a b p c).setChild s.other q = of s a q p c := by
  cases s <;> rfl

@[simp]
theorem setParent_of : (of s a b p c).setParent q = of s a b q c := by
  cases s <;> rfl

@[simp]
theorem setColor_of : (of s a b p c).setColor d = of s a b p d := by
  cases s <;> rfl

theorem replace_of [DecidableEq α] {x : α} (hb : b ≠ some x) :
    (of s (some x) b p c).replace x q = of s q b p c := by
  cases s with
  | left => simp [of, replace]
  | right => simp [of, replace, hb]

end RbEntry

def Linked (e : α → RbEntry α) (p : Option α) : ColorTree α → Prop
  | .nil => True
  | .node c l x r => e x = ⟨l.top, r.top, p, c⟩ ∧ Linked e (some x) l ∧ Linked e (some x) r

def LinkedPath (h : RbTree α) : List (Frame α) → Option α → Prop
  | [], q => h.root = q
  | f :: fs, q => h.entry f.node = .of f.side q f.sibling.top (above fs) f.color ∧
      Linked h.entry (some f.node) f.sibling ∧ LinkedPath h fs (some f.node)

/-- The pointers make up the tree that has `t` in the hole of `fs`. No node is in two places, and
the entries of all other nodes are as in `e₀`. -/
structure Focus (e₀ : α → RbEntry α) (h : RbTree α) (t : ColorTree α) (fs : List (Frame α)) :
    Prop where
  tree : Linked h.entry (above fs) t
  path : LinkedPath h fs t.top
  nodup : (t.toList ++ fs.flatMap Frame.nodes).Nodup
  frame : ∀ z ∉ t.toList ++ fs.flatMap Frame.nodes, h.entry z = e₀ z

/-- The pointers make up the tree `t`. -/
def Represents (e₀ : α → RbEntry α) (h : RbTree α) (t : ColorTree α) : Prop := Focus e₀ h t []

section Linked

variable {e e' e₀ : α → RbEntry α} {h h' : RbTree α} {p q : Option α} {s : Side} {c d : Color}
  {t a b : ColorTree α} {x y z : α} {f : Frame α} {fs : List (Frame α)}

theorem Linked.congr (hl : Linked e p t) (he : ∀ z ∈ t.toList, e' z = e z) : Linked e' p t := by
  induction t generalizing p with
  | nil => trivial
  | node c l x r ihl ihr =>
    obtain ⟨hx, hl', hr'⟩ := hl
    simp only [ColorTree.toList, List.mem_append, List.mem_cons] at he
    refine ⟨(he x (.inr (.inl rfl))).trans hx, ihl hl' ?_, ihr hr' ?_⟩
    · exact fun z hz => he z (.inl hz)
    · exact fun z hz => he z (.inr (.inr hz))

theorem linked_mk : Linked e p (.mk s c a x b) ↔
    e x = .of s a.top b.top p c ∧ Linked e (some x) a ∧ Linked e (some x) b := by
  cases s with
  | left => exact Iff.rfl
  | right => exact and_congr_right fun _ => and_comm

theorem Linked.reparent (hl : Linked e p t) (hn : t.toList.Nodup)
    (htop : ∀ z, t.top = some z → e' z = (e z).setParent q)
    (he : ∀ z ∈ t.toList, t.top ≠ some z → e' z = e z) : Linked e' q t := by
  cases t with
  | nil => trivial
  | node c l x r =>
    obtain ⟨hx, hl', hr'⟩ := hl
    have hne : ∀ z, z ∈ l.toList ∨ z ∈ r.toList → x ≠ z := by
      rintro z hz rfl
      simp only [ColorTree.toList, List.nodup_append, List.nodup_cons, List.mem_cons] at hn
      obtain ⟨-, ⟨hxr, -⟩, hd⟩ := hn
      obtain hz | hz := hz
      · exact hd x hz x (.inl rfl) rfl
      · exact hxr hz
    have hin : ∀ z, z ∈ l.toList ∨ z ∈ r.toList → e' z = e z := by
      intro z hz
      refine he z ?_ fun h => hne z hz (Option.some.inj h)
      simp only [ColorTree.toList, List.mem_append, List.mem_cons]
      tauto
    refine ⟨by rw [htop x rfl, hx]; rfl, hl'.congr ?_, hr'.congr ?_⟩
    · exact fun z hz => hin z (.inl hz)
    · exact fun z hz => hin z (.inr hz)

theorem above_mem (h : above fs = some z) : z ∈ fs.flatMap Frame.nodes := by
  cases fs with
  | nil => cases h
  | cons f fs =>
    cases h
    simp [Frame.nodes]

theorem LinkedPath.congr (hp : LinkedPath h fs q) (hroot : h'.root = h.root)
    (he : ∀ z ∈ fs.flatMap Frame.nodes, h'.entry z = h.entry z) : LinkedPath h' fs q := by
  induction fs generalizing q with
  | nil => exact hroot.trans hp
  | cons f fs ih =>
    obtain ⟨hf, hs, hfs⟩ := hp
    simp only [List.flatMap_cons, Frame.nodes, List.cons_append, List.mem_cons,
      List.mem_append] at he
    refine ⟨(he _ (.inl rfl)).trans hf, hs.congr ?_, ih hfs ?_⟩
    · exact fun z hz => he z (.inr (.inl hz))
    · exact fun z hz => he z (.inr (.inr hz))

theorem focus_cons : Focus e₀ h t (f :: fs) ↔ Focus e₀ h (f.plug t) fs := by
  have hperm : (t.toList ++ (f :: fs).flatMap Frame.nodes).Perm
      ((f.plug t).toList ++ fs.flatMap Frame.nodes) := by
    simpa using ((toList_plug_perm f t).append_right (fs.flatMap Frame.nodes)).symm
  constructor
  · rintro ⟨ht, ⟨hf, hs, hfs⟩, hn, he⟩
    refine ⟨linked_mk.mpr ⟨hf, ht, hs⟩, ?_, hperm.nodup_iff.mp hn, ?_⟩
    · simpa [Frame.plug] using hfs
    · exact fun z hz => he z fun hz' => hz (hperm.mem_iff.mp hz')
  · rintro ⟨ht, hfs, hn, he⟩
    obtain ⟨hf, ht, hs⟩ := linked_mk.mp ht
    refine ⟨ht, ⟨hf, hs, ?_⟩, hperm.nodup_iff.mpr hn, ?_⟩
    · simpa [Frame.plug] using hfs
    · exact fun z hz => he z fun hz' => hz (hperm.mem_iff.mpr hz')

theorem represents_fill : Represents e₀ h (fill fs t) ↔ Focus e₀ h t fs := by
  induction fs generalizing t with
  | nil => exact Iff.rfl
  | cons f fs ih => rw [fill, ih, focus_cons]

theorem nodup_mk : (ColorTree.mk s c a x b).toList.Nodup ↔
    x ∉ a.toList ∧ x ∉ b.toList ∧ a.toList.Nodup ∧ b.toList.Nodup ∧
      ∀ z ∈ a.toList, z ∉ b.toList := by
  cases s with
  | left =>
    simp only [ColorTree.toList_mk_left, List.nodup_append, List.nodup_cons, List.mem_cons]
    grind
  | right =>
    simp only [ColorTree.toList_mk_right, List.nodup_append, List.nodup_cons, List.mem_cons]
    grind

theorem focus_append {gs : List (Frame α)} :
    Focus e₀ h t (gs ++ fs) ↔ Focus e₀ h (fill gs t) fs := by
  rw [← represents_fill, ← represents_fill, fill_append]

theorem Focus.frame_congr (hF : Focus e₀ h t fs)
    (he : ∀ z ∉ t.toList ++ fs.flatMap Frame.nodes, e z = e₀ z) : Focus e h t fs :=
  ⟨hF.tree, hF.path, hF.nodup, fun z hz => (hF.frame z hz).trans (he z hz).symm⟩

theorem Focus.near (hF : Focus e₀ h (.mk s c a x b) fs) : Focus e₀ h a (⟨s, c, x, b⟩ :: fs) :=
  focus_cons.mpr hF

theorem Focus.far (hF : Focus e₀ h (.mk s c a x b) fs) :
    Focus e₀ h b (⟨s.other, c, x, a⟩ :: fs) := by
  rw [← ColorTree.mk_other] at hF
  exact focus_cons.mpr hF

theorem Focus.up (hF : Focus e₀ h a (⟨s, c, x, b⟩ :: fs)) : Focus e₀ h (.mk s c a x b) fs :=
  focus_cons.mp hF

theorem Focus.entry (hF : Focus e₀ h (.mk s c a x b) fs) :
    h.entry x = .of s a.top b.top (above fs) c := (linked_mk.mp hF.tree).1

theorem Focus.parent_eq (hF : Focus e₀ h t fs) (hx : t.top = some x) :
    (h.entry x).parent = above fs := by
  obtain rfl | ⟨c, a, y, b, rfl⟩ := t.eq_nil_or_mk .left
  · cases hx
  · rw [ColorTree.top_mk] at hx
    cases hx
    rw [hF.entry, RbEntry.parent_of]

theorem LinkedPath.root_mem (hp : LinkedPath h (f :: fs) q) :
    ∃ r ∈ (f :: fs).flatMap Frame.nodes, h.root = some r := by
  induction fs generalizing f q with
  | nil => exact ⟨f.node, by simp [Frame.nodes], hp.2.2⟩
  | cons g fs ih =>
    obtain ⟨r, hr, hroot⟩ := ih hp.2.2
    exact ⟨r, List.mem_append_right _ hr, hroot⟩

theorem Focus.root_mem (hF : Focus e₀ h t (f :: fs)) :
    ∃ r ∈ (f :: fs).flatMap Frame.nodes, h.root = some r := hF.path.root_mem

theorem Focus.top_ne_root (hF : Focus e₀ h t (f :: fs)) : t.top ≠ h.root := by
  obtain ⟨r, hr, hroot⟩ := hF.root_mem
  rw [hroot]
  intro htop
  exact (List.nodup_append.mp hF.nodup).2.2 r (ColorTree.top_mem htop) r hr rfl

theorem Focus.top_ne (hF : Focus e₀ h (.mk s c a x b) fs) (hy : a.top = some y) :
    b.top ≠ some y := by
  obtain ⟨hn, -⟩ := List.nodup_append.mp hF.nodup
  intro hb
  exact (nodup_mk.mp hn).2.2.2.2 y (ColorTree.top_mem hy) (ColorTree.top_mem hb)

theorem Focus.isRed_eq (hF : Focus e₀ h t fs) : h.isRed t.top = t.isRed := by
  obtain rfl | ⟨c, a, y, b, rfl⟩ := t.eq_nil_or_mk .left
  · rfl
  · rw [ColorTree.top_mk, RbTree.isRed, hF.entry, RbEntry.color_of, ColorTree.isRed_mk]

end Linked

section Updates

variable [DecidableEq α] {e₀ : α → RbEntry α} {h : RbTree α} {p q : Option α} {s : Side}
  {c d : Color} {t a b u : ColorTree α} {x y z : α} {fs : List (Frame α)}

@[simp]
theorem RbTree.setChild_self : (h.setChild x s p).entry x = (h.entry x).setChild s p :=
  Function.update_self ..

@[simp]
theorem RbTree.setParent_self : (h.setParent x p).entry x = (h.entry x).setParent p :=
  Function.update_self ..

@[simp]
theorem RbTree.setColor_self : (h.setColor x c).entry x = (h.entry x).setColor c :=
  Function.update_self ..

theorem RbTree.setChild_of_ne (hz : z ≠ x) : (h.setChild x s p).entry z = h.entry z :=
  Function.update_of_ne hz _ _

theorem RbTree.setParent_of_ne (hz : z ≠ x) : (h.setParent x p).entry z = h.entry z :=
  Function.update_of_ne hz _ _

theorem RbTree.setColor_of_ne (hz : z ≠ x) : (h.setColor x c).entry z = h.entry z :=
  Function.update_of_ne hz _ _

theorem RbTree.replaceChild_of_ne (hz : p ≠ some z) :
    (h.replaceChild p x q).entry z = h.entry z := by
  cases p with
  | none => rfl
  | some p => exact Function.update_of_ne (fun he => hz (congrArg some he.symm)) _ _

theorem RbTree.setParentOf_of_ne (hz : q ≠ some z) : (h.setParentOf q p).entry z = h.entry z := by
  cases q with
  | none => rfl
  | some x => exact Function.update_of_ne (fun he => hz (congrArg some he.symm)) _ _

@[simp]
theorem RbTree.setParentOf_root : (h.setParentOf q p).root = h.root := by
  cases q <;> rfl

theorem LinkedPath.replaceChild (hp : LinkedPath h fs (some x))
    (hn : (x :: fs.flatMap Frame.nodes).Nodup) :
    LinkedPath (h.replaceChild (above fs) x q) fs q := by
  cases fs with
  | nil => rfl
  | cons f fs =>
    obtain ⟨hf, hs, hfs⟩ := hp
    simp only [List.flatMap_cons, Frame.nodes, List.cons_append, List.nodup_cons, List.mem_cons,
      List.mem_append, not_or] at hn
    obtain ⟨⟨-, hxs, -⟩, ⟨hns, hnfs⟩, -⟩ := hn
    have hne : ∀ z, z ∈ f.sibling.toList ∨ z ∈ fs.flatMap Frame.nodes → above (f :: fs) ≠ some z := by
      rintro z hz h
      cases h
      obtain hz | hz := hz
      · exact hns hz
      · exact hnfs hz
    refine ⟨?_, hs.congr ?_, hfs.congr rfl ?_⟩
    · show update h.entry f.node ((h.entry f.node).replace x q) f.node = _
      rw [Function.update_self, hf, RbEntry.replace_of]
      exact fun htop => hxs (ColorTree.top_mem htop)
    · exact fun z hz => RbTree.replaceChild_of_ne (hne z (.inl hz))
    · exact fun z hz => RbTree.replaceChild_of_ne (hne z (.inr hz))

theorem Focus.setColor (hF : Focus e₀ h (.mk s c a x b) fs) (d : Color) :
    Focus e₀ (h.setColor x d) (.mk s d a x b) fs := by
  obtain ⟨ht, hp, hn, hfr⟩ := hF
  obtain ⟨hx, ha, hb⟩ := linked_mk.mp ht
  have hn' := List.nodup_append.mp hn
  obtain ⟨hxa, hxb, -⟩ := nodup_mk.mp hn'.1
  have hlist : (ColorTree.mk s d a x b).toList = (ColorTree.mk s c a x b).toList :=
    ColorTree.toList_mk_congr rfl rfl
  have hmem : x ∈ (ColorTree.mk s c a x b).toList := ColorTree.mem_toList_mk.mpr (.inr (.inl rfl))
  refine ⟨linked_mk.mpr ⟨?_, ha.congr ?_, hb.congr ?_⟩, ?_, hlist ▸ hn, ?_⟩
  · rw [RbTree.setColor_self, hx, RbEntry.setColor_of]
  · exact fun z hz => RbTree.setColor_of_ne fun he => hxa (he ▸ hz)
  · exact fun z hz => RbTree.setColor_of_ne fun he => hxb (he ▸ hz)
  · rw [ColorTree.top_mk] at hp ⊢
    refine hp.congr rfl fun z hz => RbTree.setColor_of_ne ?_
    rintro rfl
    exact hn'.2.2 z hmem z hz rfl
  · intro z hz
    rw [hlist] at hz
    rw [RbTree.setColor_of_ne, hfr z hz]
    rintro rfl
    exact hz (List.mem_append_left _ hmem)

theorem Focus.rotate (hF : Focus e₀ h (.mk s c a x (.mk s d b y u)) fs) :
    ∃ h', rbRotate s h x = .ok h' ∧ Focus e₀ h' (.mk s d (.mk s c a x b) y u) fs := by
  obtain ⟨ht, hp, hn, hfr⟩ := hF
  obtain ⟨hx, ha, hyt⟩ := linked_mk.mp ht
  obtain ⟨hy, hb, hu⟩ := linked_mk.mp hyt
  rw [ColorTree.top_mk] at hp hx
  have hlist := ColorTree.toList_rotate s c d a x b y u
  obtain ⟨hnt, hnf, hdis⟩ := List.nodup_append.mp hn
  obtain ⟨hxa, hxyt, -, hny, hay⟩ := nodup_mk.mp hnt
  obtain ⟨hyb, hyu, hnb, -, hbu⟩ := nodup_mk.mp hny
  simp only [ColorTree.mem_toList_mk, not_or] at hxyt hay hdis
  obtain ⟨hxb, hxy, hxu⟩ := hxyt
  have hout : ∀ z ∈ fs.flatMap Frame.nodes, z ≠ x ∧ z ≠ y ∧ b.top ≠ some z := by
    intro z hz
    refine ⟨?_, ?_, fun hb => hdis z (.inr (.inr (.inl (ColorTree.top_mem hb)))) z hz rfl⟩
    · exact fun he => hdis x (.inr (.inl rfl)) z hz he.symm
    · exact fun he => hdis y (.inr (.inr (.inr (.inl rfl)))) z hz he.symm
  have hin : ∀ z, z ∈ a.toList ∨ z = x ∨ z ∈ b.toList ∨ z = y ∨ z ∈ u.toList → above fs ≠ some z :=
    fun z hz hab => hdis z hz z (above_mem hab) rfl
  have hbx : b.top ≠ some x := fun htop => hxb (ColorTree.top_mem htop)
  have hby : b.top ≠ some y := fun htop => hyb (ColorTree.top_mem htop)
  -- the entries before and after the parent gets its new child
  let h₁ := ((h.setChild x s.other b.top).setParentOf b.top (some x)).setParent y (above fs)
  let h₂ := h₁.replaceChild (above fs) x (some y)
  let h₃ := (h₂.setChild y s (some x)).setParent x (some y)
  have hx₁ : h₁.entry x = .of s a.top b.top (above fs) c := by
    rw [RbTree.setParent_of_ne hxy, RbTree.setParentOf_of_ne hbx, RbTree.setChild_self, hx,
      RbEntry.setChild_other_of]
  have hy₁ : h₁.entry y = .of s b.top u.top (above fs) d := by
    rw [RbTree.setParent_self, RbTree.setParentOf_of_ne hby, RbTree.setChild_of_ne (Ne.symm hxy),
      hy, RbEntry.setParent_of]
  have hrest : ∀ z, z ≠ x → z ≠ y → b.top ≠ some z → h₁.entry z = h.entry z := by
    intro z hzx hzy hzb
    rw [RbTree.setParent_of_ne hzy, RbTree.setParentOf_of_ne hzb, RbTree.setChild_of_ne hzx]
  have hrest₃ : ∀ z, z ≠ x → z ≠ y → h₃.entry z = h₂.entry z := by
    intro z hzx hzy
    rw [RbTree.setParent_of_ne hzx, RbTree.setChild_of_ne hzy]
  have hsame : ∀ z, above fs ≠ some z → h₂.entry z = h₁.entry z :=
    fun z hz => RbTree.replaceChild_of_ne hz
  have hrun : rbRotate s h x = .ok h₃ := by
    have hpar : (((h.setChild x s.other b.top).setParentOf b.top (some x)).entry x).parent =
        above fs := by
      rw [RbTree.setParentOf_of_ne hbx, RbTree.setChild_self, hx, RbEntry.setChild_other_of,
        RbEntry.parent_of]
    have hpar₁ : (h₁.entry x).parent = above fs := by rw [hx₁, RbEntry.parent_of]
    simp only [rbRotate, hx, hy, RbEntry.child_of, RbEntry.child_other_of, deref, bind,
      Except.bind, pure, Except.pure, hpar]
    simp only [h₁] at hpar₁
    simp only [hpar₁]
    rfl
  refine ⟨h₃, hrun, linked_mk.mpr ⟨?_, linked_mk.mpr ⟨?_, ?_, ?_⟩, ?_⟩, ?_, hlist ▸ hn, ?_⟩
  · rw [RbTree.setParent_of_ne (Ne.symm hxy), RbTree.setChild_self, hsame y (hin y (by simp)), hy₁,
      RbEntry.setChild_of, ColorTree.top_mk]
  · rw [RbTree.setParent_self, RbTree.setChild_of_ne hxy, hsame x (hin x (by simp)), hx₁,
      RbEntry.setParent_of]
  · refine ha.congr fun z hz => ?_
    have hzx : z ≠ x := fun he => hxa (he ▸ hz)
    have hzb : b.top ≠ some z := fun htop => (hay z hz).1 (ColorTree.top_mem htop)
    rw [hrest₃ z hzx (hay z hz).2.1, hsame z (hin z (.inl hz)), hrest z hzx (hay z hz).2.1 hzb]
  · refine hb.reparent hnb ?_ ?_
    · intro z htop
      have hz := ColorTree.top_mem htop
      have hzx : z ≠ x := fun he => hxb (he ▸ hz)
      have hzy : z ≠ y := fun he => hyb (he ▸ hz)
      rw [hrest₃ z hzx hzy, hsame z (hin z (.inr (.inr (.inl hz)))), RbTree.setParent_of_ne hzy, htop]
      show ((h.setChild x s.other (some z)).setParent z (some x)).entry z = _
      rw [RbTree.setParent_self, RbTree.setChild_of_ne hzx]
    · intro z hz htop
      have hzx : z ≠ x := fun he => hxb (he ▸ hz)
      have hzy : z ≠ y := fun he => hyb (he ▸ hz)
      rw [hrest₃ z hzx hzy, hsame z (hin z (.inr (.inr (.inl hz)))), hrest z hzx hzy htop]
  · refine hu.congr fun z hz => ?_
    have hzx : z ≠ x := fun he => hxu (he ▸ hz)
    have hzy : z ≠ y := fun he => hyu (he ▸ hz)
    have hzb : b.top ≠ some z := fun htop => hbu z (ColorTree.top_mem htop) hz
    rw [hrest₃ z hzx hzy, hsame z (hin z (by simp [hz])), hrest z hzx hzy hzb]
  · rw [ColorTree.top_mk]
    have hp₁ : LinkedPath h₁ fs (some x) := by
      refine hp.congr ?_ fun z hz => ?_
      · exact RbTree.setParentOf_root
      · exact hrest z (hout z hz).1 (hout z hz).2.1 (hout z hz).2.2
    have hp₂ : LinkedPath h₂ fs (some y) :=
      hp₁.replaceChild (List.nodup_cons.mpr ⟨fun hz => (hout x hz).1 rfl, hnf⟩)
    exact hp₂.congr rfl fun z hz => hrest₃ z (hout z hz).1 (hout z hz).2.1
  · intro z hz
    rw [hlist] at hz
    have hz' := hz
    simp only [List.mem_append, ColorTree.mem_toList_mk, not_or] at hz'
    obtain ⟨⟨-, hzx, hzb, hzy, -⟩, hzf⟩ := hz'
    rw [hrest₃ z hzx hzy, hsame z fun hab => hzf (above_mem hab),
      hrest z hzx hzy fun htop => hzb (ColorTree.top_mem htop), hfr z hz]

theorem Focus.blacken (hF : Focus e₀ h t fs) :
    Focus e₀ (h.blacken t.top) (t.setColor .black) fs := by
  obtain rfl | ⟨c, a, x, b, rfl⟩ := t.eq_nil_or_mk .left
  · exact hF
  · rw [ColorTree.top_mk, ColorTree.setColor_mk]
    exact Focus.setColor hF .black

theorem Focus.blackenRoot (hF : Focus e₀ h t fs) (hb : ∃ k, BalancedTree (fill fs t) .black k) :
    Represents e₀ (h.blacken h.root) (fill fs t) := by
  obtain ⟨k, hb⟩ := hb
  have hR := represents_fill.mpr hF
  have hroot : h.root = (fill fs t).top := hR.path
  rw [hroot]
  have := Focus.blacken hR
  rwa [hb.setColor_self] at this

theorem Focus.side_eq (hF : Focus e₀ h (.mk s c a x b) fs) (hne : b.top ≠ a.top) :
    (if (h.entry x).left = a.top then Side.left else .right) = s := by
  rw [hF.entry]
  cases s with
  | left => exact if_pos rfl
  | right => exact if_neg hne

end Updates

end Lthread
