import Mathlib.Data.List.Sort
import Mathlib.Data.List.Perm.Basic

namespace Lthread.OrderedTree

variable {α κ : Type*} [LinearOrder κ]

def insert (key : α → κ) (x : α) : List α → Option (List α)
  | [] => some [x]
  | y :: l =>
    if key x < key y then some (x :: y :: l)
    else if key x = key y then none
    else (insert key x l).map (y :: ·)

def find (key : α → κ) (k : κ) (l : List α) : Option α := l.find? (fun y => key y = k)

def Sorted (key : α → κ) (l : List α) : Prop := l.Pairwise fun x y => key x < key y

theorem insert_perm {key : α → κ} {x : α} {l l' : List α} (h : insert key x l = some l') :
    l'.Perm (x :: l) := by
  induction l generalizing l' with
  | nil => simp only [insert, Option.some.injEq] at h; simp [← h]
  | cons y l ih =>
    simp only [insert] at h
    split at h
    · simp only [Option.some.injEq] at h; rw [← h]
    · split at h
      · cases h
      · obtain ⟨l₁, h₁, rfl⟩ := Option.map_eq_some_iff.mp h
        exact ((ih h₁).cons y).trans (List.Perm.swap x y l)

theorem insert_eq_none {key : α → κ} {x : α} {l : List α} (h : insert key x l = none) :
    ∃ y ∈ l, key y = key x := by
  induction l with
  | nil => cases h
  | cons y l ih =>
    simp only [insert] at h
    split at h
    · cases h
    · split at h
      · rename_i hk
        exact ⟨y, List.mem_cons_self, hk.symm⟩
      · obtain ⟨z, hz, hk⟩ := ih (Option.map_eq_none_iff.mp h)
        exact ⟨z, List.mem_cons_of_mem _ hz, hk⟩

theorem find_eq_some {key : α → κ} {k : κ} {l : List α} {x : α} (h : find key k l = some x) :
    x ∈ l ∧ key x = k :=
  ⟨List.mem_of_find?_eq_some h, by simpa using List.find?_some h⟩

theorem find_eq_none {key : α → κ} {k : κ} {l : List α} (h : find key k l = none) :
    ∀ x ∈ l, key x ≠ k := by
  simpa [find] using h

variable {key key' : α → κ} {x y : α} {l l' : List α}

theorem Sorted.insert (h : Sorted key l) (hi : insert key x l = some l') : Sorted key l' := by
  induction l generalizing l' with
  | nil =>
    simp only [OrderedTree.insert, Option.some.injEq] at hi
    simp [← hi, Sorted]
  | cons y l ih =>
    obtain ⟨hy, hl⟩ := List.pairwise_cons.mp h
    simp only [OrderedTree.insert] at hi
    split at hi
    · rename_i hlt
      cases hi
      refine List.pairwise_cons.mpr ⟨?_, h⟩
      intro z hz
      obtain rfl | hz := List.mem_cons.mp hz
      · exact hlt
      · exact hlt.trans (hy z hz)
    · split at hi
      · cases hi
      · rename_i hlt hne
        obtain ⟨l₁, h₁, rfl⟩ := Option.map_eq_some_iff.mp hi
        refine List.pairwise_cons.mpr ⟨?_, ih hl h₁⟩
        intro z hz
        obtain rfl | hz := List.mem_cons.mp ((insert_perm h₁).mem_iff.mp hz)
        · exact lt_of_le_of_ne (not_lt.mp hlt) (Ne.symm hne)
        · exact hy z hz

theorem Sorted.nodup (h : Sorted key l) : l.Nodup :=
  h.imp fun hlt heq => absurd (congrArg key heq) hlt.ne

theorem Sorted.eq_of_key (h : Sorted key l) (hx : x ∈ l) (hy : y ∈ l) (hk : key x = key y) :
    x = y := by
  have hn : (l.map key).Nodup := List.pairwise_map.mpr (h.imp fun hlt => hlt.ne)
  exact List.inj_on_of_nodup_map hn hx hy hk

theorem Sorted.find_eq_some_iff {k : κ} (h : Sorted key l) :
    find key k l = some x ↔ x ∈ l ∧ key x = k := by
  constructor
  · exact find_eq_some
  · rintro ⟨hx, hk⟩
    cases hf : find key k l with
    | none => exact absurd hk (find_eq_none hf x hx)
    | some y =>
      obtain ⟨hy, hky⟩ := find_eq_some hf
      rw [h.eq_of_key hx hy (hk.trans hky.symm)]

theorem Sorted.insert_eq_none_iff (h : Sorted key l) :
    OrderedTree.insert key x l = none ↔ ∃ y ∈ l, key y = key x := by
  refine ⟨insert_eq_none, ?_⟩
  rintro ⟨z, hz, hk⟩
  induction l with
  | nil => cases hz
  | cons y l ih =>
    obtain ⟨hy, hl⟩ := List.pairwise_cons.mp h
    simp only [OrderedTree.insert]
    obtain rfl | hz := List.mem_cons.mp hz
    · rw [if_neg (by simp [hk]), if_pos hk.symm]
    · have hlt : key y < key x := hk ▸ hy z hz
      rw [if_neg hlt.not_gt, if_neg hlt.ne', ih hl hz]
      rfl

theorem insert_eq_none_of_mem (h : l.Pairwise fun x y => key x ≤ key y) (hy : y ∈ l)
    (hk : key y = key x) : OrderedTree.insert key x l = none := by
  induction l with
  | nil => cases hy
  | cons z l ih =>
    obtain ⟨hz, hl⟩ := List.pairwise_cons.mp h
    simp only [OrderedTree.insert]
    have hle : key z ≤ key x := by
      obtain rfl | hy := List.mem_cons.mp hy
      · exact hk.le
      · exact hk ▸ hz y hy
    rw [if_neg hle.not_gt]
    by_cases he : key x = key z
    · rw [if_pos he]
    · obtain rfl | hy := List.mem_cons.mp hy
      · exact absurd hk.symm he
      · rw [if_neg he, ih hl hy]
        rfl

theorem insert_between {l₁ l₂ : List α} (h₁ : ∀ z ∈ l₁, key z < key x)
    (h₂ : ∀ z ∈ l₂, key x < key z) : insert key x (l₁ ++ l₂) = some (l₁ ++ x :: l₂) := by
  induction l₁ with
  | nil =>
    cases l₂ with
    | nil => rfl
    | cons y l₂ => exact if_pos (h₂ y List.mem_cons_self)
  | cons y l₁ ih =>
    have hlt := h₁ y List.mem_cons_self
    rw [List.cons_append, OrderedTree.insert, if_neg hlt.not_gt, if_neg hlt.ne',
      ih fun z hz => h₁ z (List.mem_cons_of_mem _ hz)]
    rfl

theorem Sorted.congr (h : Sorted key l) (hk : ∀ x ∈ l, key' x = key x) : Sorted key' l :=
  h.imp_of_mem fun hx hy hlt => by rwa [hk _ hx, hk _ hy]

end Lthread.OrderedTree
